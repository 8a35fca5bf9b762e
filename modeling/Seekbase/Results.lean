/-
# Seekbase.Results — the result file of a query task, and the `done` line that vouches for it.

A query's rows do not go into its record: the driver has the bridge write them to a file of their own,
a line for each row, first under a temporary name that is then renamed; only when it hears that this
is done does it post the `done` line with the number of the rows.  A cancellation may come in between,
and then the file is written for nobody.

* `persistOps`    — what `_persist_result` does to the directory, operation by operation;
* `readResult`    — the reader of `result`, and `readResult_rows`, its round trip;
* `Shelf`         — a task together with the directory that all tasks and retention write to;
* `Vouched`       — a `done` line that is logged or in flight has its file;
* `done_has_rows` — what `result` answers once the status has said `done`, ∀ interleavings.
-/
import Mathlib.Logic.Function.Basic
import Seekbase.Cancel
import Seekbase.Jsonl
import Seekbase.TaskLog

namespace Seekbase

open JsonText Transition Runner

/-! ## The directory -/

/-- The files of `tasks/results`, by name. -/
abbrev ResultDir := String → Option (List UInt8)

inductive FileOp where
  /-- `open(path, "w")`. -/
  | create (name : String)
  | write (name : String) (bytes : List UInt8)
  | rename (src dst : String)
  | unlink (name : String)

def FileOp.apply (d : ResultDir) : FileOp → ResultDir
  | .create name => Function.update d name (some [])
  | .write name bytes => Function.update d name ((d name).map (· ++ bytes))
  | .rename src dst => Function.update (Function.update d dst (d src)) src none
  | .unlink name => Function.update d name none

def ResultDir.after (d : ResultDir) (ops : List FileOp) : ResultDir := ops.foldl FileOp.apply d

def resultName (id : String) : String := id ++ ".jsonl"

/-- `path.with_suffix(".tmp")`. -/
def tmpName (id : String) : String := id ++ ".tmp"

/-- `json.dumps(r, ensure_ascii=False, default=str) + "\n"` of a row in its JSON form. -/
def resultLine (r : Json) : List UInt8 := Utf8.encode (dumps r ++ ['\n'])

/-- `_persist_result`. -/
def persistOps (id : String) (rows : List Json) : List FileOp :=
  .create (tmpName id) :: rows.map (fun r => .write (tmpName id) (resultLine r))
    ++ [.rename (tmpName id) (resultName id)]

/-- The names a task's operations touch. -/
def FileOp.names : FileOp → List String
  | .create name | .write name _ | .unlink name => [name]
  | .rename src dst => [src, dst]

theorem apply_other {op : FileOp} {name : String} (h : name ∉ op.names) (d : ResultDir) :
    op.apply d name = d name := by
  match op with
  | .create n | .write n _ | .unlink n =>
    have hne : name ≠ n := fun heq => h (heq ▸ List.mem_singleton_self n)
    exact Function.update_of_ne hne _ _
  | .rename src dst =>
    have hsrc : name ≠ src := fun heq => h (heq ▸ List.mem_cons_self)
    have hdst : name ≠ dst := fun heq => h (heq ▸ List.mem_cons_of_mem _ (List.mem_singleton_self _))
    show Function.update (Function.update d dst (d src)) src none name = d name
    rw [Function.update_of_ne hsrc, Function.update_of_ne hdst]

theorem after_other {ops : List FileOp} {name : String} (h : ∀ op ∈ ops, name ∉ op.names)
    (d : ResultDir) : d.after ops name = d name := by
  induction ops generalizing d with
  | nil => rfl
  | cons op ops ih =>
    show ResultDir.after (op.apply d) ops name = d name
    rw [ih (fun o ho => h o (List.mem_cons_of_mem _ ho)), apply_other (h op List.mem_cons_self)]

/-! ## Names -/

theorem tmp_ne_result (a b : String) : tmpName a ≠ resultName b := by
  intro h
  have hlast := congrArg (fun s : String => s.toList.getLast?) h
  simp [tmpName, resultName, String.toList_append] at hlast

theorem resultName_inj {a b : String} (h : resultName a = resultName b) : a = b := by
  have hlist := congrArg String.toList h
  rw [resultName, resultName, String.toList_append, String.toList_append] at hlist
  exact String.toList_inj.mp (List.append_cancel_right hlist)

/-- What another task does, whole or in part, leaves the file of this one alone. -/
theorem persist_other {id id' : String} (h : id' ≠ id) (rows : List Json) :
    ∀ op ∈ persistOps id' rows, resultName id ∉ op.names := by
  intro op hop hin
  rcases List.mem_append.mp hop with hop | hop
  · rcases List.mem_cons.mp hop with rfl | hop
    · exact tmp_ne_result _ _ (List.mem_singleton.mp hin).symm
    · obtain ⟨r, -, rfl⟩ := List.mem_map.mp hop
      exact tmp_ne_result _ _ (List.mem_singleton.mp hin).symm
  · obtain rfl := List.mem_singleton.mp hop
    rcases List.mem_cons.mp hin with heq | hin
    · exact tmp_ne_result _ _ heq.symm
    · exact h (resultName_inj (List.mem_singleton.mp hin)).symm

/-- Up to the rename the result file is what it was. -/
theorem persist_cut (id : String) (rows : List Json) :
    ∀ op ∈ (persistOps id rows).dropLast, resultName id ∉ op.names := by
  intro op hop hin
  rw [persistOps, List.dropLast_concat] at hop
  rcases List.mem_cons.mp hop with rfl | hop
  · exact tmp_ne_result _ _ (List.mem_singleton.mp hin).symm
  · obtain ⟨r, -, rfl⟩ := List.mem_map.mp hop
    exact tmp_ne_result _ _ (List.mem_singleton.mp hin).symm

theorem after_writes (d : ResultDir) (name : String) (rows : List Json) {old : List UInt8}
    (h : d name = some old) :
    d.after (rows.map fun r => .write name (resultLine r)) name
      = some (old ++ rows.flatMap resultLine) := by
  induction rows generalizing d old with
  | nil => simpa [ResultDir.after] using h
  | cons r rows ih =>
    have hone : FileOp.apply d (.write name (resultLine r)) name = some (old ++ resultLine r) := by
      show Function.update d name _ name = _
      rw [Function.update_self, h]
      rfl
    show ResultDir.after (FileOp.apply d (.write name (resultLine r))) _ name = _
    rw [ih _ hone, List.flatMap_cons, List.append_assoc]

/-- After the rename it is the rows, whatever was there before. -/
theorem persist_done (d : ResultDir) (id : String) (rows : List Json) :
    d.after (persistOps id rows) (resultName id) = some (rows.flatMap resultLine) := by
  have hnew : FileOp.apply d (.create (tmpName id)) (tmpName id) = some [] := Function.update_self ..
  have hwritten := after_writes _ (tmpName id) rows hnew
  rw [persistOps, ResultDir.after, List.foldl_append, List.foldl_cons, List.foldl_cons, List.foldl_nil]
  refine (Function.update_of_ne (tmp_ne_result id id).symm _ _).trans ?_
  exact (Function.update_self ..).trans (hwritten.trans (by rw [List.nil_append]))

/-! ## The reader -/

/-- `[json.loads(line) for line in f if line.strip()]`: nothing where decoding or a line raises. -/
def readResult (bytes : List UInt8) : Option (List Json) :=
  (Utf8.decode bytes).bind fun text =>
    ((text.splitOnP isNewline).filter fun line => strip line ≠ []).mapM loads

theorem flatMap_resultLine (rows : List Json) :
    rows.flatMap resultLine = Utf8.encode (rows.flatMap fun r => dumps r ++ ['\n']) := by
  induction rows with
  | nil => rfl
  | cons r rows ih => rw [List.flatMap_cons, List.flatMap_cons, Utf8.encode_append, ih]; rfl

/-- A row in its JSON form: `default=str`. -/
def Record.members (row : Record) : Members := row.map fun kv => (kv.1, kv.2.image)

def jsonForms (rows : List Record) : List Json := rows.map fun row => .obj row.members

/-- No line of a result file is blank. -/
theorem strip_dumps_ne_nil (r : Json) : strip (dumps r) ≠ [] := by
  obtain ⟨c, cs, hdumps, ⟨hlow, hhigh⟩, -⟩ := @dumpsWith_visible escChar r
  have hc : isSpace c = false := by
    simp only [isSpace, Bool.or_eq_false_iff, Bool.and_eq_false_iff, decide_eq_false_iff_not,
      beq_eq_false_iff_ne]
    omega
  rw [dumps, hdumps, strip, List.dropWhile_cons_of_neg (by simp [hc]), Ne, List.rdropWhile_eq_nil_iff]
  intro hall
  exact absurd (hall c List.mem_cons_self) (by simp [hc])

/-- The rows are read back, every one and in order. -/
theorem readResult_rows (rows : List Json) : readResult (rows.flatMap resultLine) = some rows := by
  rw [readResult, flatMap_resultLine, Utf8.decode_encode, Option.bind_some]
  induction rows with
  | nil => rfl
  | cons row rows ih =>
    have hsep : isNewline '\n' = true := by decide
    rw [List.flatMap_cons, List.append_assoc, List.singleton_append, List.splitOnP_append_cons _ _ hsep,
      List.splitOnP_eq_singleton (isNewline_dumps _), List.singleton_append,
      List.filter_cons_of_pos (by simpa using strip_dumps_ne_nil row), List.mapM_cons, loads_dumps]
    show (List.mapM loads _).bind (fun js => some (row :: js)) = _
    rw [ih]
    rfl

/-! ## `result` -/

inductive ResultFault where
  /-- `QueryError` with its message. -/
  | query (message : String)
  /-- Bytes that are no UTF-8, or a line that is no JSON text. -/
  | unreadable
  deriving DecidableEq

/-- `result`, from the record its `status` found and what is in the directory when it reads. -/
def Task.result (t : Task) (d : ResultDir) : Except ResultFault (List Json) :=
  match t.state with
  | .pending => .error (.query ("task " ++ t.id ++ " is still pending"))
  | .running => .error (.query ("task " ++ t.id ++ " is still running"))
  | .cancelled => .error (.query ("task " ++ t.id ++ " was cancelled"))
  | .failed => .error (.query ("task " ++ t.id ++ " failed: " ++ t.error.getD "None"))
  | .done =>
    if t.op ≠ "query" then .error (.query ("task " ++ t.id ++ " (" ++ t.op ++ ") has no result rows"))
    else
      match d (resultName t.id) with
      | none => .error (.query ("task " ++ t.id ++ " result expired (retention GC)"))
      | some bytes =>
        match readResult bytes with
        | some rows => .ok rows
        | none => .error .unreadable

/-! ## A task and the directory -/

structure Shelf where
  runner : Runner
  dir : ResultDir

/-- A task has been born; the directory holds anything. -/
def Shelf.init (c : Spawn) (d : ResultDir) : Shelf := ⟨Runner.init c, d⟩

inductive ShelfLabel where
  /-- A step of the task; a result file that fails to be written has got to `n` operations. -/
  | task (l : TaskLabel) (n : Nat)
  /-- Another task's result file, as far as `n` operations. -/
  | other (id : String) (rows : List Json) (n : Nat)
  /-- `gc`, at an open: a file's time is up. -/
  | expire (name : String)

/-- What a step of the task does to the directory: its result file is one job of the bridge. -/
def Runner.fileOps (c : Spawn) (s : Runner) (n : Nat) : TaskLabel → List FileOp
  | .finish =>
    match s.running with
    | some (.persist rows, _) => persistOps c.task.id rows
    | _ => []
  | .fail _ =>
    match s.running with
    | some (.persist rows, _) => (persistOps c.task.id rows).dropLast.take n
    | _ => []
  | _ => []

def shelfStep (c : Spawn) (s : Shelf) : ShelfLabel → Option Shelf
  | .task l n => (taskStep c s.runner l).map fun r => ⟨r, s.dir.after (s.runner.fileOps c n l)⟩
  | .other id rows n =>
    if id ≠ c.task.id then some { s with dir := s.dir.after ((persistOps id rows).take n) } else none
  | .expire name => some { s with dir := s.dir.after [.unlink name] }

/-- What the query returns: a list of rows, or a dict that has one. -/
def Returns (result : Json) (rows : List Record) : Prop :=
  result = .arr (jsonForms rows)
    ∨ ∃ ms : Members, result = .obj ms ∧ lookup "rows" ms = some (.arr (jsonForms rows))

theorem Returns.rowsOf {result : Json} {rows : List Record} (h : Returns result rows) :
    rowsOf result = jsonForms rows := by
  rcases h with rfl | ⟨ms, rfl, hms⟩
  · rfl
  · rw [Seekbase.rowsOf, hms]

/-! ## What is vouched for -/

section Vouched

variable {c : Spawn} {rows : List Json} {gone : Prop} {s t : Shelf}

/-- The result file holds the rows, unless it was there long enough. -/
def Kept (c : Spawn) (rows : List Json) (gone : Prop) (d : ResultDir) : Prop :=
  d (resultName c.task.id) = some (rows.flatMap resultLine)
    ∨ gone ∧ d (resultName c.task.id) = none

/-- The driver hears of a result file only when it is there, and a `done` line that is logged or in
flight comes after that.  A job that goes on unheard has the same rows. -/
structure Vouched (c : Spawn) (rows : List Json) (gone : Prop) (s : Shelf) : Prop where
  queued : s.runner.Queued
  driver : ∀ rs o, s.runner.driver = .awaiting (.persisting rs) o →
    rs = rows ∧ (o = some (.ok ()) → Kept c rows gone s.dir)
  running : ∀ rs b, s.runner.running = some (.persist rs, b) → rs = rows
  lines : ∀ u ∈ s.runner.lines, u.state = .done →
    u.rows = some rows.length ∧ u.op = c.task.op ∧ u.id = c.task.id ∧ Kept c rows gone s.dir

/-- The steps of a query that returns these rows, under a retention that may or may not act. -/
def Allowed (c : Spawn) (rows : List Json) (gone : Prop) (_ : Shelf) : ShelfLabel → Prop
  | .task (.work _ (.ok r)) _ => rowsOf r = rows
  | .expire name => name = resultName c.task.id → gone
  | _ => True

theorem abandon_running {s : Runner} {j : Job} {b : Bool} (h : s.abandon.running = some (j, b)) :
    ∃ b', s.running = some (j, b') := by
  obtain ⟨⟨j', b'⟩, hrun, heq⟩ := Option.map_eq_some_iff.mp h
  obtain ⟨rfl, -⟩ := Prod.mk.inj heq
  exact ⟨b', hrun⟩

/-- A job comes to the bridge thread from the queue, and stays the job it is. -/
theorem step_running {s t : Runner} {l : TaskLabel} (hstep : taskStep c s l = some t) {j : Job}
    {b : Bool} (hr : t.running = some (j, b)) : (∃ b', s.running = some (j, b')) ∨ j ∈ s.queue := by
  cases taskStep_moves hstep with
  | silenced | interrupted => exact Or.inl (abandon_running hr)
  | begin hnone hq =>
    obtain ⟨rfl, -⟩ := Prod.mk.inj (Option.some.inj hr)
    exact Or.inr (hq ▸ List.mem_cons_self)
  | wrote | read | ran | failed => cases hr
  | _ => exact Or.inl ⟨b, hr⟩

/-- A queued result file is the one the driver awaits. -/
theorem queued_persist {s : Runner} (hq : s.Queued) {rs : List Json} (hmem : .persist rs ∈ s.queue) :
    s.driver = .awaiting (.persisting rs) none := by
  have hown : Job.persist rs ∈ ownJobs s.queue := List.mem_filter.mpr ⟨hmem, rfl⟩
  by_cases hd : ∃ p, s.driver = .awaiting p none
  · obtain ⟨p, hp⟩ := hd
    rcases hq.inFlight p hp with ⟨hjobs, -⟩ | ⟨hjobs, -⟩
    · rw [hjobs] at hown
      have hjob : Job.persist rs = p.job := List.mem_singleton.mp hown
      match p with
      | .persisting rs' =>
        obtain rfl := Job.persist.inj hjob
        exact hp
      | .logging u | .finishing u | .handling u => exact absurd hjob (by simp [Phase.job])
    · rw [hjobs] at hown
      exact absurd hown (by simp)
  · rw [(hq.idle fun p hp => hd ⟨p, hp⟩).queue] at hown
    exact absurd hown (by simp)

/-- A result file that the driver hears of is the one it awaits. -/
theorem heard_persist {s : Runner} (hq : s.Queued) {rs : List Json}
    (hd : s.driver = .awaiting (.persisting rs) none) {j : Job} {b : Bool}
    (hr : s.running = some (j, b)) (hb : (b && j.own) = true) : j = .persist rs := by
  obtain ⟨rfl, hj⟩ := Bool.and_eq_true_iff.mp hb
  exact (lost_awaited hq hd hr hj).1

/-- What a step does to the result file: the rows, nothing, or its end. -/
theorem shelf_dir (h : Vouched c rows gone s) {l : ShelfLabel} (hl : Allowed c rows gone s l)
    (hstep : shelfStep c s l = some t) : Kept c rows gone t.dir
      ∨ t.dir (resultName c.task.id) = s.dir (resultName c.task.id) := by
  match l with
  | .task l n =>
    obtain ⟨r, hr, rfl⟩ := Option.map_eq_some_iff.mp hstep
    match l with
    | .finish =>
      match hrun : s.runner.running with
      | some (.persist rs, b) =>
        have hops : s.runner.fileOps c n .finish = persistOps c.task.id rs := by
          simp only [Runner.fileOps, hrun]
        refine Or.inl (Or.inl ?_)
        show s.dir.after _ _ = _
        rw [hops, persist_done, h.running rs b hrun]
      | none | some (.line _, _) | some (.status _, _) | some (.other, _) =>
        refine Or.inr ?_
        show s.dir.after _ _ = _
        simp only [Runner.fileOps, hrun]
        rfl
    | .fail f =>
      refine Or.inr (after_other ?_ _)
      intro op hop
      simp only [Runner.fileOps] at hop
      split at hop
      · next rs b hrun => exact persist_cut c.task.id rs op (List.mem_of_mem_take hop)
      · exact absurd hop (by simp)
    | .enter | .throw _ | .work _ _ | .resume _ | .begin | .other | .cancel | .joined _ | .close =>
      exact Or.inr rfl
  | .other id rs n =>
    simp only [shelfStep] at hstep
    split at hstep
    · next hid =>
      obtain rfl := Option.some.inj hstep
      exact Or.inr (after_other (fun op hop => persist_other hid rs op (List.mem_of_mem_take hop)) _)
    · exact absurd hstep (by simp)
  | .expire name =>
    obtain rfl := Option.some.inj hstep
    by_cases hname : name = resultName c.task.id
    · subst hname
      exact Or.inl (Or.inr ⟨hl rfl, Function.update_self ..⟩)
    · exact Or.inr (Function.update_of_ne (Ne.symm hname) _ _)

theorem kept_step (h : Vouched c rows gone s) {l : ShelfLabel} (hl : Allowed c rows gone s l)
    (hstep : shelfStep c s l = some t) (hk : Kept c rows gone s.dir) : Kept c rows gone t.dir := by
  rcases shelf_dir h hl hstep with hnew | hsame
  · exact hnew
  · rw [Kept, hsame]
    exact hk

/-- The end of its job: the file the driver hears of is there. -/
theorem kept_heard (h : Vouched c rows gone s) {rs : List Json} {n : Nat}
    (hd : s.runner.driver = .awaiting (.persisting rs) none) {j : Job} {b : Bool}
    (hr : s.runner.running = some (j, b)) (hb : (b && j.own) = true)
    (hstep : shelfStep c s (.task .finish n) = some t) : Kept c rows gone t.dir := by
  obtain rfl := heard_persist h.queued hd hr hb
  obtain ⟨r, -, rfl⟩ := Option.map_eq_some_iff.mp hstep
  have hops : s.runner.fileOps c n .finish = persistOps c.task.id rs := by
    simp only [Runner.fileOps, hr]
  refine Or.inl ?_
  show s.dir.after _ _ = _
  rw [hops, persist_done, h.running rs b hr]

theorem settle_not_done (now : String) (e : Raised) : (c.settle now e).state ≠ .done := by
  match e with
  | .cancelled => simp [Spawn.settle]
  | .failure .timeout => simp [Spawn.settle]
  | .failure (.error type message) => simp [Spawn.settle]

/-- The work of a query ends: its rows go to the bridge. -/
theorem query_worked (hq : c.task.op = "query") {s t : Runner} {now : String} {r : Json}
    (hstep : taskStep c s (.work now (.ok r)) = some t) :
    t.lines = s.lines ∧ t.driver = .awaiting (.persisting (rowsOf r)) none := by
  cases taskStep_moves hstep with
  | rows hd =>
    refine ⟨?_, rfl⟩
    rw [await_lines]
    exact List.append_nil _
  | stats hd hne => exact absurd hq hne

/-- What is asked of a line. -/
def Vouches (c : Spawn) (rows : List Json) (gone : Prop) (d : ResultDir) (u : Task) : Prop :=
  u.state = .done →
    u.rows = some rows.length ∧ u.op = c.task.op ∧ u.id = c.task.id ∧ Kept c rows gone d

/-- What is asked of the driver. -/
def Awaits (c : Spawn) (rows : List Json) (gone : Prop) (d : ResultDir) (w : Driver) : Prop :=
  ∀ rs o, w = .awaiting (.persisting rs) o →
    rs = rows ∧ (o = some (.ok ()) → Kept c rows gone d)

/-- The lines and the driver after a step, the end of the work apart. -/
theorem moved_vouched (h : Vouched c rows gone s) {l : TaskLabel} {n : Nat}
    (hl : Allowed c rows gone s (.task l n)) (hstep : shelfStep c s (.task l n) = some t)
    (hno : ∀ now r, l ≠ .work now (.ok r)) {L : List Task} {w : Driver}
    (hm : Moved c s.runner l L w) :
    (∀ u ∈ L, Vouches c rows gone t.dir u) ∧ Awaits c rows gone t.dir w := by
  have hold : ∀ u ∈ s.runner.lines, Vouches c rows gone t.dir u := fun u hu hd =>
    have ⟨hrows, hop, hid, hk⟩ := h.lines u hu hd
    ⟨hrows, hop, hid, kept_step h hl hstep hk⟩
  have hsub : ∀ {L : List Task}, L.Sublist s.runner.lines →
      ∀ u ∈ L, Vouches c rows gone t.dir u := fun hL u hu => hold u (hL.subset hu)
  -- a line that is no `done` line vouches for nothing
  have hadd : ∀ {L : List Task} {v : Task}, (∀ u ∈ L, Vouches c rows gone t.dir u) →
      v.state ≠ .done → ∀ u ∈ L ++ [v], Vouches c rows gone t.dir u := by
    intro L v hL hv u hu
    rcases List.mem_append.mp hu with hu | hu
    · exact hL u hu
    · obtain rfl := List.mem_singleton.mp hu
      exact fun hd => absurd hd hv
  have hsame : Awaits c rows gone t.dir s.runner.driver := fun rs o hd =>
    have ⟨hrs, hk⟩ := h.driver rs o hd
    ⟨hrs, fun ho => kept_step h hl hstep (hk ho)⟩
  have hwritten : ∀ u ∈ s.runner.written, Vouches c rows gone t.dir u := hsub (written_sublist _)
  cases hm with
  | adopted hd hr => exact ⟨hold, fun rs o hw => absurd hw (by simp)⟩
  | logging hd hr => exact ⟨hadd hold (by simp [Spawn.current]), fun rs o hw => absurd hw (by simp)⟩
  | dropped now hd => exact ⟨hold, fun rs o hw => absurd hw (by simp)⟩
  | stopped now hd => exact ⟨hadd hold (settle_not_done _ _), fun rs o hw => absurd hw (by simp)⟩
  | silenced now u o hd => exact ⟨hwritten, fun rs o hw => absurd hw (by simp)⟩
  | interrupted now p o hd hp =>
    exact ⟨hadd hwritten (settle_not_done _ _), fun rs o hw => absurd hw (by simp)⟩
  | rows now r rs hd => exact absurd rfl (hno now r)
  | stats now r hd => exact absurd rfl (hno now r)
  | raised now e hd => exact ⟨hadd hold (settle_not_done _ _), fun rs o hw => absurd hw (by simp)⟩
  | logged now u hd => exact ⟨hold, fun rs o hw => absurd hw (by simp)⟩
  | stored now rs hd =>
    -- the one step that posts a `done` line: the file has been heard of
    obtain ⟨rfl, hk⟩ := h.driver rs _ hd
    refine ⟨fun u hu => ?_, fun rs o hw => absurd hw (by simp)⟩
    rcases List.mem_append.mp hu with hu | hu
    · exact hold u hu
    · obtain rfl := List.mem_singleton.mp hu
      exact fun _ => ⟨rfl, rfl, rfl, kept_step h hl hstep (hk rfl)⟩
  | finished now u hd => exact ⟨hold, fun rs o hw => absurd hw (by simp)⟩
  | settled now u o e hd => exact ⟨hold, fun rs o hw => absurd hw (by simp)⟩
  | handled now p f hd hp =>
    exact ⟨hadd hold (settle_not_done _ _), fun rs o hw => absurd hw (by simp)⟩
  | written j b hr =>
    refine ⟨hold, ?_⟩
    unfold Driver.hear
    split
    · next p hd =>
      split
      · next hb =>
        intro rs o hw
        obtain ⟨rfl, rfl⟩ := Driver.awaiting.inj hw
        exact ⟨(h.driver rs none hd).1, fun _ => kept_heard h hd hr hb hstep⟩
      · exact hd ▸ hsame
    · exact hsame
  | lost f j b hr hj =>
    refine ⟨hsub (lost_sublist _), ?_⟩
    unfold Driver.hear
    split
    · next p hd =>
      split
      · intro rs o hw
        obtain ⟨rfl, rfl⟩ := Driver.awaiting.inj hw
        exact ⟨(h.driver rs none hd).1, fun ho => absurd ho (by simp)⟩
      · exact hd ▸ hsame
    · exact hsame
  | still l => exact ⟨hold, hsame⟩

theorem shelf_step (hq : c.task.op = "query") (s : Shelf) (l : ShelfLabel) (t : Shelf)
    (h : Vouched c rows gone s) (hl : Allowed c rows gone s l) (hstep : shelfStep c s l = some t) :
    Vouched c rows gone t := by
  by_cases htask : ∃ l' n, l = .task l' n
  · obtain ⟨l', n, rfl⟩ := htask
    obtain ⟨r, hr, ht⟩ := Option.map_eq_some_iff.mp hstep
    have hrunner : t.runner = r := by rw [← ht]
    have hrun : ∀ rs b, t.runner.running = some (.persist rs, b) → rs = rows := by
      intro rs b hb
      rcases step_running hr (hrunner ▸ hb) with ⟨b', hb'⟩ | hmem
      · exact h.running rs b' hb'
      · exact (h.driver rs none (queued_persist h.queued hmem)).1
    have hqueued : t.runner.Queued := hrunner ▸ step_queued c _ _ _ h.queued hr
    by_cases hwork : ∃ now x, l' = .work now (.ok x)
    · obtain ⟨now, x, rfl⟩ := hwork
      obtain ⟨hlines, hdriver⟩ := query_worked hq hr
      refine ⟨hqueued, fun rs o hw => ?_, hrun, fun u hu hd => ?_⟩
      · rw [hrunner, hdriver] at hw
        obtain ⟨hp, rfl⟩ := Driver.awaiting.inj hw
        obtain rfl := Phase.persisting.inj hp
        exact ⟨hl, fun ho => absurd ho (by simp)⟩
      · rw [hrunner, hlines] at hu
        obtain ⟨hrows, hop, hid, hk⟩ := h.lines u hu hd
        exact ⟨hrows, hop, hid, kept_step h hl hstep hk⟩
    · have hno : ∀ now x, l' ≠ .work now (.ok x) := fun now x heq => hwork ⟨now, x, heq⟩
      obtain ⟨hlines, hdriver⟩ := moved_vouched h hl hstep hno (step_moved c hr)
      exact ⟨hqueued, hrunner ▸ hdriver, hrun, hrunner ▸ hlines⟩
  · -- the directory alone changes
    have hsame : t.runner = s.runner := by
      match l with
      | .task l' n => exact absurd ⟨l', n, rfl⟩ htask
      | .other id rs n =>
        simp only [shelfStep] at hstep
        split at hstep
        · obtain rfl := Option.some.inj hstep
          rfl
        · exact absurd hstep (by simp)
      | .expire name =>
        obtain rfl := Option.some.inj hstep
        rfl
    refine ⟨hsame ▸ h.queued, fun rs o hw => ?_, fun rs b hb => h.running rs b (hsame ▸ hb),
      fun u hu hd => ?_⟩
    · obtain ⟨hrs, hk⟩ := h.driver rs o (hsame ▸ hw)
      exact ⟨hrs, fun ho => kept_step h hl hstep (hk ho)⟩
    · obtain ⟨hrows, hop, hid, hk⟩ := h.lines u (hsame ▸ hu) hd
      exact ⟨hrows, hop, hid, kept_step h hl hstep hk⟩

theorem shelf_init (d : ResultDir) : Vouched c rows gone (Shelf.init c d) where
  queued := init_queued c
  driver rs o hw := absurd hw (by simp [Shelf.init, Runner.init])
  running rs b hb := absurd hb (by simp [Shelf.init, Runner.init])
  lines u hu hd := by
    obtain rfl : u = c.task := List.mem_singleton.mp hu
    rcases c.born with hb | hb <;> exact absurd (hb.symm.trans hd) (by simp)

/-- The answer of `result` for a record that vouches for its file. -/
theorem result_kept {gone : Prop} {d : ResultDir} {u : Task} (hd : u.state = .done)
    (hop : u.op = "query") (hid : u.id = c.task.id) (hk : Kept c rows gone d) :
    u.result d = .ok rows ∨ gone ∧
      u.result d = .error (.query ("task " ++ c.task.id ++ " result expired (retention GC)")) := by
  simp only [Task.result, hd, hop, hid, ne_eq, not_true_eq_false, if_false]
  rcases hk with hfile | ⟨hgone, hfile⟩
  · refine Or.inl ?_
    simp only [hfile, readResult_rows]
  · refine Or.inr ⟨hgone, ?_⟩
    simp only [hfile]

end Vouched

/-! ## A done query has its rows -/

section Done

variable {c : Spawn} {rows : List Record} {s t : Shelf}

/-- Retention has taken the result file of the task. -/
def Expired (c : Spawn) (ls : List ShelfLabel) : Prop := .expire (resultName c.task.id) ∈ ls

/-- Every result of the work in a run is the rows, in one of the two forms. -/
def Produces (rows : List Record) (ls : List ShelfLabel) : Prop :=
  ∀ now r n, .task (.work now (.ok r)) n ∈ ls → Returns r rows

/-- Labels of such a run are allowed, where what retention takes counts as gone. -/
theorem allowed_of_produces {gone : Prop} {ls : List ShelfLabel} (hprod : Produces rows ls)
    (hgone : Expired c ls → gone) : ∀ l ∈ ls, ∀ s, Allowed c (jsonForms rows) gone s l := by
  intro l hl s
  match l with
  | .task (.work now (.ok r)) n => exact (hprod now r n hl).rowsOf
  | .expire name =>
    rintro rfl
    exact hgone hl
  | .task (.work _ (.error _)) _ | .task .enter _ | .task (.throw _) _ | .task (.resume _) _
  | .task .begin _ | .task .finish _ | .task (.fail _) _ | .task .other _ | .task .cancel _
  | .task (.joined _) _ | .task .close _ | .other _ _ _ => trivial

theorem run_vouched (hq : c.task.op = "query") {gone : Prop} {ls : List ShelfLabel} {d : ResultDir}
    (hprod : Produces rows ls) (hgone : Expired c ls → gone)
    (hrun : run (shelfStep c) (Shelf.init c d) ls = some s) : Vouched c (jsonForms rows) gone s :=
  run_guarded (shelf_step hq) (shelf_init d)
    (Guarded.of_forall (allowed_of_produces hprod hgone)) hrun

/-- A file that is there stays what it is, or retention takes it. -/
theorem run_kept (hq : c.task.op = "query") {gone : Prop} {ls : List ShelfLabel}
    (hprod : Produces rows ls) (hgone : Expired c ls → gone) (h : Vouched c (jsonForms rows) gone s)
    (hk : Kept c (jsonForms rows) gone s.dir) (hrun : run (shelfStep c) s ls = some t) :
    Kept c (jsonForms rows) gone t.dir := by
  have hinv : Vouched c (jsonForms rows) gone t ∧ Kept c (jsonForms rows) gone t.dir := by
    refine run_guarded (I := fun s => Vouched c (jsonForms rows) gone s
      ∧ Kept c (jsonForms rows) gone s.dir) ?_ ⟨h, hk⟩
      (Guarded.of_forall (allowed_of_produces hprod hgone)) hrun
    rintro u l v ⟨hu, hku⟩ hl hstep
    exact ⟨shelf_step hq u l v hu hl hstep, kept_step hu hl hstep hku⟩
  exact hinv.2

end Done

/-- Whenever the log's last line of a query says `done`, in whatever order cancellations, reads of the
status, failures of the bridge, other tasks and retention came: the line has the number of the rows the
query returned, the result file is there, and what `result` reads then or later is these rows, in order
and in their JSON form.  Only retention takes the file, and `result` says so. -/
theorem done_has_rows {c : Spawn} {rows : List Record} {ls more : List ShelfLabel} {d : ResultDir}
    {s t : Shelf} {u : Task} (hq : c.task.op = "query") (hprod : Produces rows (ls ++ more))
    (hs : run (shelfStep c) (Shelf.init c d) ls = some s) (ht : run (shelfStep c) s more = some t)
    (hu : s.runner.log.getLast? = some u) (hd : u.state = .done) :
    u.rows = some rows.length
      ∧ (s.dir (resultName c.task.id) ≠ none ∨ Expired c ls)
      ∧ (u.result t.dir = .ok (jsonForms rows) ∨ Expired c (ls ++ more) ∧ u.result t.dir
          = .error (.query ("task " ++ c.task.id ++ " result expired (retention GC)"))) := by
  have hprod' : Produces rows ls := fun now r n hmem => hprod now r n (List.mem_append_left _ hmem)
  have hmore : Produces rows more := fun now r n hmem => hprod now r n (List.mem_append_right _ hmem)
  have hin : u ∈ s.runner.lines :=
    List.mem_append_left _ (List.mem_append_left _ (List.mem_of_getLast? hu))
  obtain ⟨hrows, hop, hid, hk⟩ := (run_vouched hq hprod' id hs).lines u hin hd
  refine ⟨hrows.trans (congrArg some (List.length_map _)), ?_, ?_⟩
  · rcases hk with hfile | ⟨hgone, -⟩
    · exact Or.inl (by simp [hfile])
    · exact Or.inr hgone
  · -- the read is a later job of the bridge than the status
    have hall : Vouched c (jsonForms rows) (Expired c (ls ++ more)) s :=
      run_vouched hq hprod' (fun h => List.mem_append_left _ h) hs
    have hkept := run_kept hq hmore (fun h => List.mem_append_right _ h) hall
      (hall.lines u hin hd).2.2.2 ht
    exact result_kept hd (hop.trans hq) hid hkept

/-- A query task of two days, one of them a value that JSON has no form for. -/
def daysTask : Spawn where
  task := ⟨"tk_20260801_0a1b2c3d4e5f", "query", .pending, none, none, none, some "SELECT d FROM days", none,
    some "2026-08-01T09:00:00Z", none⟩
  timeout := "300"
  born := Or.inl rfl

def daysRows : List Record :=
  [[("d", .other "2026-08-01" none)], [("d", .json (.str "a\nb"))]]

/-- The query's life, with another task's file half written in between. -/
def daysRun : List ShelfLabel :=
  [.task .enter 0, .task .begin 0, .task .finish 0, .task (.resume "09:00:00") 0,
    .task (.work "09:00:01" (.ok (.arr (jsonForms daysRows)))) 0, .task .begin 0, .task .finish 0,
    .other "tk_20260801_ffffffffffff" [.null] 2, .task (.resume "09:00:02") 0, .task .begin 0,
    .task .finish 0]

/-- A cancellation that comes too late. -/
def daysMore : List ShelfLabel :=
  [.task (.resume "09:00:03") 0, .task .cancel 0, .task .begin 0, .task .finish 0]

theorem daysRun_produces : Produces daysRows (daysRun ++ daysMore) := by
  intro now r n hmem
  have hone : ShelfLabel.task (.work now (.ok r)) n
      = .task (.work "09:00:01" (.ok (.arr (jsonForms daysRows)))) 0 := by
    simpa [daysRun, daysMore] using hmem
  simp only [ShelfLabel.task.injEq, TaskLabel.work.injEq, Except.ok.injEq] at hone
  exact Or.inl hone.1.2

theorem done_has_rows_days : ∃ s t u,
    run (shelfStep daysTask) (Shelf.init daysTask fun _ => none) daysRun = some s
    ∧ run (shelfStep daysTask) s daysMore = some t ∧ s.runner.log.getLast? = some u ∧ u.state = .done
    ∧ u.rows = some 2 ∧ u.result t.dir = .ok (jsonForms daysRows) := by
  have hruns : ∃ s t, run (shelfStep daysTask) (Shelf.init daysTask fun _ => none) daysRun = some s
      ∧ run (shelfStep daysTask) s daysMore = some t
      ∧ s.runner.log.getLast? = some (daysTask.doneRows "09:00:02" (jsonForms daysRows)) :=
    ⟨_, _, rfl, rfl, rfl⟩
  obtain ⟨s, t, hs, ht, hu⟩ := hruns
  obtain ⟨hrows, -, hresult⟩ := done_has_rows rfl daysRun_produces hs ht hu rfl
  refine ⟨s, t, _, hs, ht, hu, rfl, hrows, hresult.resolve_right fun h => ?_⟩
  exact absurd h.1 (by simp [Expired, daysRun, daysMore])

end Seekbase
