/-
# Seekbase.TaskLog — the task log: a file for each day, a line for each state, the last line stands.

An id carries the day it was made on, so a state is found by its id alone: `status` reads the one file
of that day to its end, and `list` reads file after file from the newest back until it has three times
as many tasks as it was asked for.  What is read are bytes; a line that is no dict raises.

* `newTaskId`, `dsOf`              — an id, and the day read back from it;
* `LogDir.append`, `.status`, `.list` — the three operations on the directory;
* `LogDir.Shows`                   — what the files are read as;
* `log_is_faithful`                — `status` is the last state, `list` the most recent tasks in it.
-/
import Seekbase.Clock
import Seekbase.TornTail
import Seekbase.Wire

namespace Seekbase

open JsonText

/-! ## Dicts that keep the place of a key -/

/-- Assignment to a key: the key keeps its place, a new one comes last. -/
def upsert {α : Type} (k : String) (f : Option α → α) : List (String × α) → List (String × α)
  | [] => [(k, f none)]
  | p :: r => if p.1 = k then (k, f (some p.2)) :: r else p :: upsert k f r

section Upsert

variable {α β : Type} {k : String} {f : Option α → α} {l : List (String × α)}

theorem upsert_names : (upsert k f l).map Prod.fst
    = if k ∈ l.map Prod.fst then l.map Prod.fst else l.map Prod.fst ++ [k] := by
  induction l with
  | nil => rfl
  | cons p l ih =>
    rw [upsert]
    by_cases hp : p.1 = k
    · rw [if_pos hp, if_pos (by simp [hp])]
      simp [hp]
    · rw [if_neg hp]
      simp only [List.map_cons, ih]
      by_cases hin : k ∈ l.map Prod.fst
      · rw [if_pos hin, if_pos (List.mem_cons_of_mem _ hin)]
      · rw [if_neg hin, if_neg (by simpa [Ne.symm hp] using hin)]
        rfl

theorem upsert_nodup (h : (l.map Prod.fst).Nodup) : ((upsert k f l).map Prod.fst).Nodup := by
  rw [upsert_names]
  split
  · exact h
  · next hin =>
    refine h.append (List.nodup_singleton k) fun x hx hk => ?_
    exact hin (List.mem_singleton.mp hk ▸ hx)

theorem lookup_none_iff {name : String} : lookup name l = none ↔ name ∉ l.map Prod.fst := by
  rw [← lookup_isSome_iff, Bool.not_eq_true, Option.isSome_eq_false_iff, Option.isNone_iff_eq_none]

theorem lookup_upsert (h : (l.map Prod.fst).Nodup) (name : String) : lookup name (upsert k f l)
    = if k = name then some (f (lookup k l)) else lookup name l := by
  induction l with
  | nil => simp [upsert, lookup]
  | cons p l ih =>
    obtain ⟨hp, hrest⟩ := List.nodup_cons.mp h
    rw [upsert]
    by_cases hk : p.1 = k
    · -- the key stands here and nowhere behind
      subst hk
      have hnone : lookup p.1 l = none := lookup_none_iff.mpr hp
      rw [if_pos rfl, lookup, lookup, lookup, hnone]
      by_cases hname : p.1 = name
      · subst hname
        simp [hnone]
      · simp [hname]
    · rw [if_neg hk, lookup, ih hrest]
      by_cases hname : k = name
      · subst hname
        simp [hk, lookup]
      · simp [hname, lookup]

theorem mem_iff_lookup (h : (l.map Prod.fst).Nodup) {name : String} {v : α} :
    (name, v) ∈ l ↔ lookup name l = some v := by
  refine ⟨fun hmem => ?_, mem_of_lookup⟩
  cases hl : lookup name l with
  | none => exact absurd (List.mem_map_of_mem hmem) (lookup_none_iff.mp hl)
  | some w =>
    have hw := List.inj_on_of_nodup_map h hmem (mem_of_lookup hl) rfl
    rw [(Prod.mk.inj hw).2]

/-- Values that stand for others. -/
theorem upsert_map (g : α → β) (v : α) : upsert k (fun _ => g v) (l.map fun p => (p.1, g p.2))
    = (upsert k (fun _ => v) l).map fun p => (p.1, g p.2) := by
  induction l with
  | nil => rfl
  | cons p l ih =>
    rw [List.map_cons, upsert, upsert]
    by_cases hk : p.1 = k
    · rw [if_pos hk, if_pos hk]
      rfl
    · rw [if_neg hk, if_neg hk, ih]
      rfl

end Upsert

/-! ## Ids -/

/-- Digits that are no decimal digits: superscripts, circled ones and the like. -/
def digitRanges : List (Nat × Nat) :=
  [(178, 179), (185, 185), (4969, 4977), (6618, 6618), (8304, 8304), (8308, 8313), (8320, 8329),
    (9312, 9320), (9332, 9340), (9352, 9360), (9450, 9450), (9461, 9469), (9471, 9471), (10102, 10110),
    (10112, 10120), (10122, 10130), (68160, 68163), (69216, 69224), (69714, 69722), (127232, 127242)]

/-- Python's `str.isdigit` for one character. -/
def isDigitChar (c : Char) : Bool :=
  isDecimal c || digitRanges.any fun r => r.1 ≤ c.toNat && c.toNat ≤ r.2

/-- The id `_new_task_id` makes of the day and the head of a fresh `uuid4().hex`. -/
def newTaskId (day : String) (hex : List Char) : String := "tk_" ++ day ++ "_" ++ String.ofList hex

/-- Twelve hexadecimal digits. -/
def IsHex (hex : List Char) : Prop := hex.length = 12 ∧ ∀ c ∈ hex, c ∈ "0123456789abcdef".toList

/-- `_ds_of`. -/
def dsOf (id : String) : Option String :=
  match id.toList.splitOn '_' with
  | _ :: ds :: _ :: _ => if ds ≠ [] ∧ ds.all isDigitChar = true then some (String.ofList ds) else none
  | _ => none

/-- The file of a day. -/
def logName (ds : String) : String := "ds=" ++ ds ++ ".jsonl"

/-! ## The log directory -/

/-- The files of the log with their bytes. -/
structure LogDir where
  files : List (String × List UInt8)
  namesNodup : (files.map Prod.fst).Nodup

def LogDir.empty : LogDir := ⟨[], List.nodup_nil⟩

/-- `open(path, "a")` and one `write`. -/
def LogDir.write (dir : LogDir) (name : String) (bytes : List UInt8) : LogDir :=
  ⟨upsert name (fun old => old.getD [] ++ bytes) dir.files, upsert_nodup dir.namesNodup⟩

/-- The file a task's lines go to. -/
def Task.file (t : Task) : String := logName ((dsOf t.id).getD "None")

/-- `append`. -/
def LogDir.append (dir : LogDir) (t : Task) : LogDir := dir.write t.file (lineBytes t.toWire)

inductive LogFault where
  | notFound (id : String)
  /-- Bytes that are no UTF-8, or a line that is no dict. -/
  | unreadable
  | wire (e : PyExc)

/-- The text of `NotFound`; `repr` is Python's `repr`. -/
def LogFault.message (repr : Json → String) : LogFault → Option String
  | .notFound id => some ("unknown task " ++ repr (.str id))
  | _ => none

/-- `json.loads` of a line, and the `get` that follows. -/
def loadsDict (line : List Char) : Option Members :=
  match loads line with
  | some (.obj m) => some m
  | _ => none

/-- The dicts of an open file: unlike the mirror's reader this one raises at the first bad line. -/
def logLines (text : List Char) : Option (List Members) :=
  (((text.splitOnP isNewline).map strip).filter (· ≠ [])).mapM loadsDict

def readLog (bytes : List UInt8) : Option (List Members) := (Utf8.decode bytes).bind logLines

/-- `d.get("task") == task_id or d.get("ticket") == task_id`. -/
def isOf (id : String) (d : Members) : Bool :=
  Json.text? (Members.get d "task") == some id || Json.text? (Members.get d "ticket") == some id

/-- `_find`: it keeps scanning, so the last line wins. -/
def findTask (id : String) (recs : List Members) : Option Members :=
  recs.foldl (fun found d => if isOf id d then some d else found) none

/-- `status`. -/
def LogDir.status (dir : LogDir) (id : String) : Except LogFault Task :=
  match dsOf id with
  | none => .error (.notFound id)
  | some ds =>
    match lookup (logName ds) dir.files with
    | none => .error (.notFound id)
    | some bytes =>
      match readLog bytes with
      | none => .error .unreadable
      | some recs =>
        match findTask id recs with
        | none => .error (.notFound id)
        | some d => (Task.fromWire d).mapError .wire

/-- `d.get("task") or d.get("ticket")`; no other key than a text is ever written. -/
def keyOf (d : Members) : String :=
  Members.text d (if truthy (Members.get d "task") then "task" else "ticket")

/-- The last state of each id among some lines. -/
def collect (out : List (String × Members)) (recs : List Members) : List (String × Members) :=
  recs.foldl (fun out d => upsert (keyOf d) (fun _ => d) out) out

/-- `_scan`, the files in the order it reads them. -/
def scanLogs (limit : Nat) : List (String × List UInt8) → List (String × Members) →
    Option (List (String × Members))
  | [], out => some out
  | f :: fs, out =>
    if 3 * limit ≤ out.length then some out
    else (readLog f.2).bind fun recs => scanLogs limit fs (collect out recs)

/-- `t.submitted_at or ""`. -/
def Task.submitted (t : Task) : String := t.submittedAt.getD ""

/-- `list`. -/
def LogDir.list (dir : LogDir) (limit : Nat) : Except LogFault (List Task) :=
  match scanLogs limit (dir.files.insertionSort fun a b => b.1 ≤ a.1) [] with
  | none => .error .unreadable
  | some out =>
    match (out.map Prod.snd).mapM Task.fromWire with
    | .error e => .error (.wire e)
    | .ok tasks => .ok ((tasks.insertionSort fun a b => b.submitted ≤ a.submitted).take limit)

/-- A log that nothing else was written to. -/
def logOf (ts : List Task) : LogDir := ts.foldl LogDir.append .empty

/-! ## What is generated -/

/-- A task under a generated id. -/
structure Task.Issued (t : Task) : Prop where
  made : t.Made
  id : ∃ (i : Instant) (hex : List Char), IsHex hex ∧ t.id = newTaskId i.today hex

theorem hex_ne {hex : List Char} (h : IsHex hex) : ∀ c ∈ hex, c ≠ '_' := by
  rintro c hc rfl
  exact absurd (h.2 '_' hc) (by decide)

theorem isDigitChar_digit (k : Nat) : isDigitChar (digit k) = true := by
  refine Bool.or_eq_true_iff.mpr (.inl (List.any_eq_true.mpr ⟨48, List.mem_cons_self, ?_⟩))
  have hlt : k % 10 < 10 := Nat.mod_lt k (by omega)
  rw [digit_toNat, Bool.and_eq_true, decide_eq_true_eq, decide_eq_true_eq]
  omega

/-- The day is read back from a generated id. -/
theorem dsOf_newTaskId (i : Instant) {hex : List Char} (h : IsHex hex) :
    dsOf (newTaskId i.today hex) = some i.today := by
  have hlist : (newTaskId i.today hex).toList
      = ['t', 'k'] ++ '_' :: (i.date.digits ++ '_' :: hex) := by
    simp only [newTaskId, Instant.today, Date.stamp, String.toList_append, String.toList_ofList]
    rfl
  have hdigits : ∀ c ∈ i.date.digits, c ≠ '_' := by
    rintro c hc rfl
    exact absurd (i.date.digits_isDigit '_' hc) (by decide)
  have hparts : (newTaskId i.today hex).toList.splitOn '_' = [['t', 'k'], i.date.digits, hex] := by
    have htk : '_' ∉ (['t', 'k'] : List Char) := by decide
    rw [hlist, List.splitOn_append_cons_self_of_not_mem htk,
      List.splitOn_append_cons_self_of_not_mem fun hmem => hdigits '_' hmem rfl,
      List.splitOn_eq_singleton fun hmem => hex_ne h '_' hmem rfl]
  have hall : i.date.digits.all isDigitChar = true := by
    simp [Date.digits, isDigitChar_digit]
  have hne : i.date.digits ≠ [] := List.cons_ne_nil _ _
  rw [dsOf, hparts]
  simp only [hall, hne, ne_eq, not_false_eq_true, and_self, if_true]
  rfl

/-! ## Reading what was written -/

theorem logLines_newline (a b : List Char) : logLines (a ++ '\n' :: b)
    = (logLines a).bind fun x => (logLines b).map (x ++ ·) := by
  have hsep : isNewline '\n' = true := by decide
  rw [logLines, List.splitOnP_append_cons _ _ hsep, List.map_append, List.filter_append,
    List.mapM_append]
  show ((logLines a).bind fun x => (logLines b).bind fun y => some (x ++ y)) = _
  cases logLines a with
  | none => rfl
  | some x => cases logLines b <;> rfl

theorem strip_dumps (m : Members) : strip (dumps (.obj m)) = dumps (.obj m) := by
  obtain ⟨body, hbody⟩ := dumps_obj_braces m
  rw [hbody, strip_braces]

theorem dumps_ne_nil (m : Members) : dumps (.obj m) ≠ [] := by
  obtain ⟨body, hbody⟩ := dumps_obj_braces m
  rw [hbody]
  exact List.cons_ne_nil _ _

/-- One line that is not blank. -/
theorem logLines_single {cs : List Char} (h : ∀ c ∈ cs, isNewline c = false) (hne : strip cs ≠ []) :
    logLines cs = (loadsDict (strip cs)).map ([·]) := by
  rw [logLines, List.splitOnP_eq_singleton h, List.map_singleton, List.filter_cons_of_pos (by simpa using hne),
    List.filter_nil, List.mapM_cons]
  cases loadsDict (strip cs) <;> rfl

theorem logLines_dumps (m : Members) : logLines (dumps (.obj m)) = some [m] := by
  have hload : loadsDict (dumps (.obj m)) = some m := by
    rw [loadsDict, loads_dumps]
  rw [logLines_single (isNewline_dumps _) (by rw [strip_dumps]; exact dumps_ne_nil m), strip_dumps, hload]
  rfl

/-- A file of whole lines is read as their dicts. -/
theorem readLog_lines (ms : List Members) : readLog (ms.flatMap lineBytes) = some ms := by
  rw [readLog, flatMap_lineBytes, Utf8.decode_encode, Option.bind_some]
  induction ms with
  | nil => rfl
  | cons m ms ih =>
    rw [List.flatMap_cons, lineText, List.append_assoc, List.singleton_append, logLines_newline,
      logLines_dumps, ih]
    rfl

/-! ## The files of a log -/

/-- The states that go to a file, in the order they were appended. -/
def fileStates (ts : List Task) (name : String) : List Task := ts.filter (·.file = name)

theorem fileStates_snoc (ts : List Task) (t : Task) (name : String) :
    fileStates (ts ++ [t]) name = fileStates ts name ++ if t.file = name then [t] else [] := by
  rw [fileStates, List.filter_append]
  by_cases h : t.file = name <;> simp [h, fileStates]

def fileBytes (ts : List Task) : List UInt8 := ts.flatMap fun t => lineBytes t.toWire

theorem logOf_snoc (ts : List Task) (t : Task) : logOf (ts ++ [t]) = (logOf ts).append t := by
  rw [logOf, List.foldl_append]
  rfl

/-- Each file holds the lines of its states, and there is one when there is a state for it. -/
theorem logOf_lookup (ts : List Task) (name : String) : lookup name (logOf ts).files
    = if fileStates ts name = [] then none else some (fileBytes (fileStates ts name)) := by
  induction ts using List.reverseRecOn with
  | nil => rfl
  | append_singleton ts t ih =>
    rw [logOf_snoc, LogDir.append, LogDir.write, lookup_upsert (logOf ts).namesNodup, fileStates_snoc]
    by_cases h : t.file = name
    · subst h
      rw [if_pos rfl, if_pos rfl, ih]
      split
      · next hnil =>
        rw [hnil]
        simp [fileBytes]
      · simp [fileBytes]
    · rw [if_neg h, if_neg h, List.append_nil, ih]

theorem readLog_states (ts : List Task) : readLog (fileBytes ts) = some (ts.map Task.toWire) := by
  have h := readLog_lines (ts.map Task.toWire)
  rwa [List.flatMap_map] at h

/-- What the files of a directory are read as: the states of some tasks, each in its file. -/
structure LogDir.Shows (dir : LogDir) (ts : List Task) : Prop where
  issued : ∀ t ∈ ts, t.Issued
  reads : ∀ f ∈ dir.files, readLog f.2 = some ((fileStates ts f.1).map Task.toWire)
  covers : ∀ t ∈ ts, t.file ∈ dir.files.map Prod.fst

theorem logOf_shows {ts : List Task} (h : ∀ t ∈ ts, t.Issued) : (logOf ts).Shows ts where
  issued := h
  reads := by
    intro f hf
    have hlookup := (mem_iff_lookup (logOf ts).namesNodup).mp hf
    rw [logOf_lookup] at hlookup
    split at hlookup
    · cases hlookup
    · rw [← Option.some.inj hlookup]
      exact readLog_states _
  covers := by
    intro t ht
    by_contra hno
    have hnone := lookup_none_iff.mpr hno
    rw [logOf_lookup] at hnone
    split at hnone
    · next hnil =>
      have hmem : t ∈ fileStates ts t.file := List.mem_filter.mpr ⟨ht, decide_eq_true rfl⟩
      rw [hnil] at hmem
      cases hmem
    · cases hnone

/-! ## `status` -/

theorem isOf_toWire (id : String) (t : Task) : isOf id t.toWire = decide (t.id = id) := by
  have htask := (lookup_toWire t).1
  have hticket : lookup "ticket" t.toWire = none := by
    simp only [Task.toWire, lookup_append, lookup_wireField]
    simp [lookup]
  rw [isOf, Members.get, Members.get, htask, hticket]
  by_cases h : t.id = id <;> simp [Json.text?, h]

theorem findTask_toWire (id : String) (ts : List Task) : findTask id (ts.map Task.toWire)
    = ((ts.filter (·.id = id)).getLast?).map Task.toWire := by
  induction ts using List.reverseRecOn with
  | nil => rfl
  | append_singleton ts t ih =>
    rw [findTask] at ih ⊢
    rw [List.map_append, List.foldl_append, ih, List.map_singleton, List.foldl_cons, List.foldl_nil,
      isOf_toWire, List.filter_append]
    by_cases h : t.id = id <;> simp [h]

theorem file_issued {t : Task} (h : t.Issued) : ∃ ds, dsOf t.id = some ds ∧ t.file = logName ds := by
  obtain ⟨i, hex, hhex, hid⟩ := h.id
  have hds : dsOf t.id = some i.today := by rw [hid, dsOf_newTaskId i hhex]
  exact ⟨i.today, hds, by rw [Task.file, hds]; rfl⟩

/-- `status` is the last state that is shown under the id. -/
theorem status_shows {dir : LogDir} {ts : List Task} (h : dir.Shows ts) (id : String) : dir.status id
    = match (ts.filter (·.id = id)).getLast? with
      | some t => .ok t
      | none => .error (.notFound id) := by
  rw [LogDir.status]
  cases hds : dsOf id with
  | none =>
    have hnone : ts.filter (·.id = id) = [] := by
      refine List.filter_eq_nil_iff.mpr fun t ht heq => ?_
      obtain ⟨ds, hd, -⟩ := file_issued (h.issued t ht)
      rw [of_decide_eq_true heq, hds] at hd
      cases hd
    rw [hnone]
    rfl
  | some ds =>
    have hname : ∀ t : Task, t.id = id → t.file = logName ds := by
      intro t heq
      rw [Task.file, heq, hds]
      rfl
    cases hlookup : lookup (logName ds) dir.files with
    | none =>
      have hnone : ts.filter (·.id = id) = [] := by
        refine List.filter_eq_nil_iff.mpr fun t ht heq => ?_
        have hmem := h.covers t ht
        rw [hname t (of_decide_eq_true heq)] at hmem
        exact lookup_none_iff.mp hlookup hmem
      rw [hnone]
      simp only [hlookup]
      rfl
    | some bytes =>
      -- the states under the id are among those of the file of its day
      have hfile : (fileStates ts (logName ds)).filter (·.id = id) = ts.filter (·.id = id) := by
        rw [fileStates, List.filter_filter]
        refine List.filter_congr fun t ht => ?_
        by_cases heq : t.id = id
        · simp [heq, hname t heq]
        · simp [heq]
      have hread := h.reads (logName ds, bytes) (mem_of_lookup hlookup)
      simp only [hlookup, hread, findTask_toWire, hfile]
      cases hlast : (ts.filter (·.id = id)).getLast? with
      | none => rfl
      | some t =>
        have ht := (List.mem_filter.mp (List.mem_of_getLast? hlast)).1
        show (Task.fromWire t.toWire).mapError LogFault.wire = _
        rw [fromWire_toWire (h.issued t ht).made]
        rfl

/-! ## `list` -/

/-- The last state of each id, by their ids. -/
def latest (ts : List Task) : List (String × Task) :=
  ts.foldl (fun out t => upsert t.id (fun _ => t) out) []

theorem latest_snoc (ts : List Task) (t : Task) :
    latest (ts ++ [t]) = upsert t.id (fun _ => t) (latest ts) := by
  rw [latest, List.foldl_append]
  rfl

theorem latest_nodup (ts : List Task) : ((latest ts).map Prod.fst).Nodup := by
  induction ts using List.reverseRecOn with
  | nil => exact List.nodup_nil
  | append_singleton ts t ih =>
    rw [latest_snoc]
    exact upsert_nodup ih

theorem lookup_latest (ts : List Task) (id : String) :
    lookup id (latest ts) = (ts.filter (·.id = id)).getLast? := by
  induction ts using List.reverseRecOn with
  | nil => rfl
  | append_singleton ts t ih =>
    rw [latest_snoc, lookup_upsert (latest_nodup ts), List.filter_append]
    by_cases h : t.id = id <;> simp [h, ih]

theorem mem_latest {ts : List Task} {p : String × Task} :
    p ∈ latest ts ↔ p.1 = p.2.id ∧ (ts.filter (·.id = p.2.id)).getLast? = some p.2 := by
  have hlookup : (p.1, p.2) ∈ latest ts ↔ lookup p.1 (latest ts) = some p.2 :=
    mem_iff_lookup (latest_nodup ts)
  rw [Prod.mk.eta, lookup_latest] at hlookup
  rw [hlookup]
  constructor
  · intro h
    have hid := (List.mem_filter.mp (List.mem_of_getLast? h)).2
    have heq : p.2.id = p.1 := of_decide_eq_true hid
    exact ⟨heq.symm, heq ▸ h⟩
  · rintro ⟨heq, h⟩
    rw [heq]
    exact h

theorem keyOf_toWire {t : Task} (h : t.Made) : keyOf t.toWire = t.id := by
  have htask := (lookup_toWire t).1
  have htrue : truthy (Members.get t.toWire "task") = true := by
    rw [Members.get, htask]
    simpa [truthy] using h.named
  rw [keyOf, if_pos htrue, Members.text, Members.get, htask]
  rfl

/-- The dicts that are collected are those of the last states. -/
theorem collect_toWire {ts : List Task} (h : ∀ t ∈ ts, t.Made) :
    collect [] (ts.map Task.toWire) = (latest ts).map fun p => (p.1, p.2.toWire) := by
  induction ts using List.reverseRecOn with
  | nil => rfl
  | append_singleton ts t ih =>
    have hrest := ih fun x hx => h x (List.mem_append_left _ hx)
    have ht := h t (List.mem_append_right _ List.mem_cons_self)
    rw [collect] at hrest ⊢
    rw [List.map_append, List.foldl_append, hrest, latest_snoc]
    show upsert (keyOf t.toWire) (fun _ => t.toWire) ((latest ts).map fun p => (p.1, p.2.toWire)) = _
    rw [keyOf_toWire ht]
    exact upsert_map Task.toWire t

/-- `_scan` reads the files in front of those it leaves out, and leaves some out only when it has
enough. -/
theorem scanLogs_reads (limit : Nat) {fs : List (String × List UInt8)}
    {recs : String × List UInt8 → List Members} (h : ∀ f ∈ fs, readLog f.2 = some (recs f))
    (out : List (String × Members)) : ∃ read rest, fs = read ++ rest
      ∧ scanLogs limit fs out = some (collect out (read.flatMap recs))
      ∧ (rest = [] ∨ 3 * limit ≤ (collect out (read.flatMap recs)).length) := by
  induction fs generalizing out with
  | nil => exact ⟨[], [], rfl, rfl, .inl rfl⟩
  | cons f fs ih =>
    rw [scanLogs]
    by_cases hfull : 3 * limit ≤ out.length
    · rw [if_pos hfull]
      exact ⟨[], f :: fs, rfl, rfl, .inr hfull⟩
    · obtain ⟨read, rest, rfl, hscan, hrest⟩ :=
        ih (fun g hg => h g (List.mem_cons_of_mem _ hg)) (collect out (recs f))
      have hjoin : collect (collect out (recs f)) (read.flatMap recs)
          = collect out ((f :: read).flatMap recs) := by
        rw [List.flatMap_cons, collect, collect, collect, List.foldl_append]
      rw [if_neg hfull, h f List.mem_cons_self, Option.bind_some, hscan, hjoin]
      exact ⟨f :: read, rest, rfl, rfl, hjoin ▸ hrest⟩

/-- The states of an id in some of the files: all of them, or none. -/
theorem filter_files (ts : List Task) {names : List String} (hnd : names.Nodup) (t : Task) :
    (names.flatMap (fileStates ts)).filter (·.id = t.id)
      = if t.file ∈ names then ts.filter (·.id = t.id) else [] := by
  have hsame : ∀ x : Task, x.id = t.id → x.file = t.file := by
    intro x hx
    rw [Task.file, Task.file, hx]
  induction names with
  | nil => rfl
  | cons name names ih =>
    obtain ⟨hname, hnd⟩ := List.nodup_cons.mp hnd
    rw [List.flatMap_cons, List.filter_append, ih hnd, fileStates, List.filter_filter]
    by_cases heq : t.file = name
    · subst heq
      rw [if_neg hname, if_pos List.mem_cons_self, List.append_nil]
      refine List.filter_congr fun x _ => ?_
      by_cases hx : x.id = t.id
      · simp [hx, hsame x hx]
      · simp [hx]
    · have hnil : ts.filter (fun x => decide (x.id = t.id) && decide (x.file = name)) = [] := by
        refine List.filter_eq_nil_iff.mpr fun x _ hx => ?_
        rw [Bool.and_eq_true, decide_eq_true_eq, decide_eq_true_eq] at hx
        exact heq ((hsame x hx.1).symm.trans hx.2)
      rw [hnil, List.nil_append]
      by_cases hin : t.file ∈ names
      · rw [if_pos hin, if_pos (List.mem_cons_of_mem _ hin)]
      · rw [if_neg hin, if_neg (by simp [heq, hin])]

/-- A task's last state. -/
def LastState (ts : List Task) (t : Task) : Prop := (ts.filter (·.id = t.id)).getLast? = some t

/-- A task under a generated id whose day is the one it was submitted on. -/
def Task.SubmittedOn (t : Task) (i : Instant) : Prop :=
  t.submittedAt = some i.now ∧ ∃ hex, IsHex hex ∧ t.id = newTaskId i.today hex

theorem status_ok_iff {dir : LogDir} {ts : List Task} (h : dir.Shows ts) (t : Task) :
    dir.status t.id = .ok t ↔ LastState ts t := by
  rw [status_shows h, LastState]
  split
  · next u hu => rw [hu, Except.ok.injEq, Option.some.injEq]
  · next hnone =>
    simp [hnone]

theorem logName_lt {a b : String} (h : a.toList.length = b.toList.length) :
    logName a < logName b ↔ a < b := by
  have hlist : ∀ ds : String, (logName ds).toList
      = "ds=".toList ++ (ds.toList ++ ".jsonl".toList) := by
    intro ds
    rw [logName, String.toList_append, String.toList_append, List.append_assoc]
  rw [String.lt_iff_toList_lt, String.lt_iff_toList_lt, hlist, hlist, append_lt_iff rfl, append_lt_iff h]
  simp

/-- A task whose file is older was submitted earlier. -/
theorem file_lt {t u : Task} {i j : Instant} (ht : t.SubmittedOn j) (hu : u.SubmittedOn i)
    (h : t.file < u.file) : j.number < i.number := by
  obtain ⟨-, hex, hhex, hid⟩ := ht
  obtain ⟨-, hex', hhex', hid'⟩ := hu
  have hfile : t.file = logName j.today := by rw [Task.file, hid, dsOf_newTaskId j hhex]; rfl
  have hfile' : u.file = logName i.today := by rw [Task.file, hid', dsOf_newTaskId i hhex']; rfl
  have hlen : j.today.toList.length = i.today.toList.length := by
    simp [Instant.today, Date.stamp, Date.digits]
  rw [hfile, hfile', logName_lt hlen, today_lt_iff] at h
  have hj := j.hourIn
  have hj' := j.minuteIn
  have hj'' := j.secondIn
  have hj''' := j.microIn
  rw [Instant.number, Instant.number]
  omega

/-- What `list` answers before it is ordered and cut: the last states in the files that were read. -/
structure Gathered (ts L : List Task) (read rest : List String) : Prop where
  mem : ∀ t, t ∈ L ↔ t.file ∈ read ∧ LastState ts t
  idsNodup : (L.map Task.id).Nodup
  covers : ∀ t ∈ ts, t.file ∈ read ++ rest
  newer : ∀ a ∈ read, ∀ b ∈ rest, b < a

/-- The files of a log from the newest back. -/
theorem sorted_files {dir : LogDir} {ts : List Task} (h : dir.Shows ts) : ∃ fs,
    dir.files.insertionSort (fun a b => b.1 ≤ a.1) = fs
    ∧ (∀ f ∈ fs, readLog f.2 = some ((fileStates ts f.1).map Task.toWire))
    ∧ (fs.map Prod.fst).Pairwise (fun a b => b < a) ∧ ∀ t ∈ ts, t.file ∈ fs.map Prod.fst := by
  set fs := dir.files.insertionSort (fun a b => b.1 ≤ a.1) with hfs
  have hperm : fs.Perm dir.files := List.perm_insertionSort _ _
  have hnodup : (fs.map Prod.fst).Nodup := (hperm.map Prod.fst).nodup_iff.mpr dir.namesNodup
  refine ⟨fs, rfl, fun f hf => h.reads f (hperm.mem_iff.mp hf), ?_, fun t ht => ?_⟩
  · have hsorted : (fs.map Prod.fst).Pairwise (fun a b => b ≤ a) := by
      rw [List.pairwise_map]
      exact List.pairwise_insertionSort _ _
    refine (hsorted.and hnodup).imp ?_
    rintro a b ⟨hle, hne⟩
    exact lt_of_le_of_ne hle (Ne.symm hne)
  · rw [(hperm.map Prod.fst).mem_iff]
    exact h.covers t ht

theorem fromWire_all {ts : List Task} (h : ∀ t ∈ ts, t.Made) :
    (ts.map Task.toWire).mapM Task.fromWire = .ok ts := by
  refine mapM_ok_iff.mpr (List.forall₂_map_left_iff.mpr ?_)
  exact List.forall₂_same.mpr fun t ht => fromWire_toWire (h t ht)

/-- `list` gathers the last states of some files and cuts what it has ordered; it has read all files,
or three times as many tasks as it was asked for. -/
theorem list_gathers {dir : LogDir} {ts : List Task} (h : dir.Shows ts) (limit : Nat) :
    ∃ L read rest,
      dir.list limit = .ok ((L.insertionSort fun a b => b.submitted ≤ a.submitted).take limit)
      ∧ Gathered ts L read rest ∧ (rest = [] ∨ 3 * limit ≤ L.length) := by
  obtain ⟨fs, hfs, hread, hnewer, hcovers⟩ := sorted_files h
  obtain ⟨read, rest, rfl, hscan, hrest⟩ := scanLogs_reads limit hread []
  rw [List.map_append, List.pairwise_append] at hnewer
  obtain ⟨hpair, -, hcross⟩ := hnewer
  have hnodup : (read.map Prod.fst).Nodup := hpair.imp ne_of_gt
  set us := (read.map Prod.fst).flatMap (fileStates ts) with hus
  have hflat : read.flatMap (fun f => (fileStates ts f.1).map Task.toWire) = us.map Task.toWire := by
    rw [hus, List.map_flatMap, List.flatMap_map]
  have hmade : ∀ t ∈ us, t.Made := by
    intro t ht
    obtain ⟨name, -, ht⟩ := List.mem_flatMap.mp ht
    exact (h.issued t (List.mem_filter.mp ht).1).made
  have hcollect : collect [] (read.flatMap fun f => (fileStates ts f.1).map Task.toWire)
      = (latest us).map fun p => (p.1, p.2.toWire) := by
    rw [hflat, collect_toWire hmade]
  rw [hcollect] at hscan hrest
  refine ⟨(latest us).map Prod.snd, read.map Prod.fst, rest.map Prod.fst, ?_, ⟨fun t => ?_, ?_, ?_, ?_⟩, ?_⟩
  · have hlast : ∀ t ∈ (latest us).map Prod.snd, t.Made := by
      intro t ht
      obtain ⟨p, hp, rfl⟩ := List.mem_map.mp ht
      exact hmade _ (List.mem_filter.mp (List.mem_of_getLast? (mem_latest.mp hp).2)).1
    have hdicts : ((latest us).map fun p => (p.1, p.2.toWire)).map Prod.snd
        = ((latest us).map Prod.snd).map Task.toWire := by
      rw [List.map_map, List.map_map]
      rfl
    simp only [LogDir.list, hfs, hscan, hdicts, fromWire_all hlast]
  · have hfilter := filter_files ts hnodup t
    rw [← hus] at hfilter
    have hmem : t ∈ (latest us).map Prod.snd ↔ (us.filter (·.id = t.id)).getLast? = some t := by
      constructor
      · intro ht
        obtain ⟨p, hp, rfl⟩ := List.mem_map.mp ht
        exact (mem_latest.mp hp).2
      · intro ht
        exact List.mem_map.mpr ⟨(t.id, t), mem_latest.mpr ⟨rfl, ht⟩, rfl⟩
    rw [hmem, hfilter, LastState]
    split
    · next hin => exact (and_iff_right hin).symm
    · next hout => exact iff_of_false (by simp) fun hh => hout hh.1
  · have hids : ((latest us).map Prod.snd).map Task.id = (latest us).map Prod.fst := by
      rw [List.map_map]
      exact List.map_congr_left fun p hp => (mem_latest.mp hp).1.symm
    rw [hids]
    exact latest_nodup us
  · intro t ht
    rw [← List.map_append]
    exact hcovers t ht
  · exact hcross
  · rcases hrest with rfl | hrest
    · exact .inl rfl
    · rw [List.length_map] at hrest ⊢
      exact .inr hrest

/-- How many tasks there are. -/
def taskCount (ts : List Task) : Nat := (ts.map Task.id).dedup.length

theorem exists_last {ts : List Task} {t : Task} (ht : t ∈ ts) :
    ∃ u, u.id = t.id ∧ LastState ts u := by
  have hmem : t ∈ ts.filter (·.id = t.id) := List.mem_filter.mpr ⟨ht, decide_eq_true rfl⟩
  cases hlast : (ts.filter (·.id = t.id)).getLast? with
  | none =>
    rw [List.getLast?_eq_none_iff.mp hlast] at hmem
    cases hmem
  | some u =>
    have hid : u.id = t.id := of_decide_eq_true (List.mem_filter.mp (List.mem_of_getLast? hlast)).2
    exact ⟨u, hid, by rw [LastState, hid, hlast]⟩

theorem LastState.mem {ts : List Task} {t : Task} (h : LastState ts t) : t ∈ ts :=
  (List.mem_filter.mp (List.mem_of_getLast? h)).1

section Gathered

variable {ts L : List Task} {read rest : List String}

theorem Gathered.length_le (h : Gathered ts L read rest) : L.length ≤ taskCount ts := by
  have hsub : L.map Task.id ⊆ (ts.map Task.id).dedup := by
    intro id hid
    obtain ⟨t, ht, rfl⟩ := List.mem_map.mp hid
    exact List.mem_dedup.mpr (List.mem_map_of_mem ((h.mem t).mp ht).2.mem)
  have hle := (List.subperm_of_subset h.idsNodup hsub).length_le
  rwa [List.length_map] at hle

theorem Gathered.length_all (h : Gathered ts L read []) : L.length = taskCount ts := by
  refine le_antisymm h.length_le ?_
  have hsub : (ts.map Task.id).dedup ⊆ L.map Task.id := by
    intro id hid
    obtain ⟨t, ht, rfl⟩ := List.mem_map.mp (List.mem_dedup.mp hid)
    obtain ⟨u, hid, hlast⟩ := exists_last ht
    have hfile := h.covers u hlast.mem
    rw [List.append_nil] at hfile
    rw [← hid]
    exact List.mem_map_of_mem ((h.mem u).mpr ⟨hfile, hlast⟩)
  have hle := (List.subperm_of_subset (List.nodup_dedup _) hsub).length_le
  rwa [List.length_map] at hle

end Gathered

/-- The log is a faithful store.  `status` is the last state that was appended under an id, and raises
when none was; `list` has as many of the tasks as it was asked for, in the state `status` reports, the
most recently submitted ones, in that order. -/
theorem log_is_faithful {ts : List Task} (h : ∀ t ∈ ts, t.Issued) :
    (∀ id, (logOf ts).status id
      = match (ts.filter (·.id = id)).getLast? with
        | some t => .ok t
        | none => .error (.notFound id))
    ∧ ((∀ t ∈ ts, ∃ i, t.SubmittedOn i) → ∀ limit, 1 ≤ limit → ∃ out,
      (logOf ts).list limit = .ok out
      ∧ out.length = min limit (taskCount ts)
      ∧ (out.map Task.id).Nodup
      ∧ (∀ t ∈ out, (logOf ts).status t.id = .ok t)
      ∧ out.Pairwise (fun a b => ∀ i j : Instant, a.submittedAt = some i.now →
        b.submittedAt = some j.now → j.number ≤ i.number)
      ∧ ∀ t, (logOf ts).status t.id = .ok t → t ∉ out → ∀ u ∈ out, ∀ i j : Instant,
        u.submittedAt = some i.now → t.submittedAt = some j.now → j.number ≤ i.number) := by
  have hshows := logOf_shows h
  refine ⟨status_shows hshows, ?_⟩
  intro hday limit hlimit
  obtain ⟨L, read, rest, hlist, hgather, hrest⟩ := list_gathers hshows limit
  set sorted := L.insertionSort fun a b => b.submitted ≤ a.submitted with hsorted
  have hperm : sorted.Perm L := List.perm_insertionSort _ _
  have hpair : sorted.Pairwise fun a b => b.submitted ≤ a.submitted := List.pairwise_insertionSort _ _
  -- the order of the texts is the order of the instants
  have hnewer : ∀ a b : Task, b.submitted ≤ a.submitted → ∀ i j : Instant,
      a.submittedAt = some i.now → b.submittedAt = some j.now → j.number ≤ i.number := by
    intro a b hle i j hi hj
    rw [Task.submitted, Task.submitted, hi, hj] at hle
    exact now_le_iff.mp hle
  have hids : (sorted.map Task.id).Nodup := (hperm.map Task.id).nodup_iff.mpr hgather.idsNodup
  refine ⟨sorted.take limit, hlist, ?_, ?_, fun t ht => ?_, ?_, ?_⟩
  · have hle := hgather.length_le
    rw [List.length_take, hperm.length_eq]
    rcases hrest with rfl | hrest
    · rw [hgather.length_all]
    · omega
  · exact hids.sublist ((List.take_sublist _ _).map _)
  · rw [status_ok_iff hshows]
    exact ((hgather.mem t).mp (hperm.mem_iff.mp (List.mem_of_mem_take ht))).2
  · exact (hpair.sublist (List.take_sublist _ _)).imp fun {a b} hle => hnewer a b hle
  · intro t ht hout u hu i j hi hj
    rw [status_ok_iff hshows] at ht
    have huL := (hgather.mem u).mp (hperm.mem_iff.mp (List.mem_of_mem_take hu))
    rcases List.mem_append.mp (hgather.covers t ht.mem) with hread | hunread
    · -- it was gathered and cut off
      have htL : t ∈ sorted := hperm.mem_iff.mpr ((hgather.mem t).mpr ⟨hread, ht⟩)
      rw [← List.take_append_drop limit sorted] at htL hpair
      have hdrop := (List.mem_append.mp htL).resolve_left hout
      exact hnewer u t ((List.pairwise_append.mp hpair).2.2 u hu t hdrop) i j hi hj
    · -- its file is older than that of every task that was gathered
      obtain ⟨i', hi'⟩ := hday u huL.2.mem
      obtain ⟨j', hj'⟩ := hday t ht.mem
      have hlt := file_lt hj' hi' (hgather.newer _ huL.1 _ hunread)
      have hieq : i'.now = i.now := Option.some.inj (hi'.1.symm.trans hi)
      have hjeq : j'.now = j.now := Option.some.inj (hj'.1.symm.trans hj)
      have hi_le := now_le_iff.mp hieq.le
      have hj_le := now_le_iff.mp hjeq.ge
      omega

/-! ## Two tasks -/

def morning : Instant := ⟨secondOfJanuary, 8, 30, 0, 0, by decide, by decide, by decide, by decide⟩

def evening : Instant :=
  ⟨ninthOfJanuary, 20, 15, 7, 250000, by decide, by decide, by decide, by decide⟩

def aHex : List Char := "0123456789ab".toList

theorem aHex_isHex : IsHex aHex := by
  have hall : aHex.all (fun c => decide (c ∈ "0123456789abcdef".toList)) = true := by decide
  exact ⟨rfl, fun c hc => of_decide_eq_true (List.all_eq_true.mp hall c hc)⟩

/-- A query that was submitted at an instant. -/
def queryAt (i : Instant) (state : TaskState) : Task where
  id := newTaskId i.today aHex
  op := "query"
  state := state
  error := none
  matched := none
  stats := none
  query := some "scan cards"
  rows := none
  submittedAt := some i.now
  finishedAt := none

theorem queryAt_issued (i : Instant) (state : TaskState) : (queryAt i state).Issued where
  made := ⟨by simp [queryAt, newTaskId], by simp [queryAt]⟩
  id := ⟨i, aHex, aHex_isHex, rfl⟩

theorem log_is_faithful_queries :
    (logOf [queryAt morning .pending, queryAt evening .done, queryAt morning .running]).status
      (queryAt morning .pending).id = .ok (queryAt morning .running)
    ∧ ∃ out, (logOf [queryAt morning .pending, queryAt evening .done, queryAt morning .running]).list 1
      = .ok out ∧ out.length = min 1 (taskCount
        [queryAt morning .pending, queryAt evening .done, queryAt morning .running]) := by
  have hissued : ∀ t ∈ [queryAt morning .pending, queryAt evening .done, queryAt morning .running],
      t.Issued ∧ ∃ i, t.SubmittedOn i := by
    intro t ht
    simp only [List.mem_cons, List.not_mem_nil, or_false] at ht
    rcases ht with rfl | rfl | rfl
    all_goals exact ⟨queryAt_issued _ _, _, rfl, aHex, aHex_isHex, rfl⟩
  have h := log_is_faithful fun t ht => (hissued t ht).1
  constructor
  · rw [h.1]
    rfl
  · obtain ⟨out, hout, hlen, -⟩ := h.2 (fun t ht => (hissued t ht).2) 1 le_rfl
    exact ⟨out, hout, hlen⟩

end Seekbase
