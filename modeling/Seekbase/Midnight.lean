/-
# Seekbase.Midnight — the day and the instant of one write are two readings of the clock.

An insert and a delete read `today()` and then `now()`, a new task the day of its id and then
`now()`, the end of a batch `now()` once and then a day for each of its tasks.  A midnight that falls
between two of these readings dates a row into one day and its instant into the next.

* `dayOf`, `dayOf_now`       — the UTC day an ISO instant names;
* `clockStep`                — the worker's steps and the births of tasks, on a clock that never goes back;
* `Row.Stamped`, `Clocked.Stamped` — every pair kept anywhere was read as one, for any relation;
* `clock_step_stamped`       — a step whose readings are so related keeps them so;
* `days_agree`               — the partition always agrees, and without a midnight the instants do.
-/
import Seekbase.Batch
import Seekbase.TaskLog

namespace Seekbase

open JsonText Transition

/-! ## The day of an instant -/

/-- The UTC day an ISO text names: its first ten characters without the dashes. -/
def dayOf (iso : String) : String := String.ofList ((iso.toList.take 10).filter (· ≠ '-'))

theorem digit_ne_dash (k : Nat) : digit k ≠ '-' := by
  intro h
  have hdigit := digit_isDigit k
  rw [h] at hdigit
  exact absurd hdigit (by decide)

theorem dayOf_now (i : Instant) : dayOf i.now = i.today := by
  have hyear : i.date.year / 100 / 10 = i.date.year / 1000 := Nat.div_div_eq_div_mul _ 100 10
  simp [dayOf, Instant.now, Instant.head, Instant.today, Date.stamp, Date.digits, pad4, pad2,
    digit_ne_dash, hyear]

theorem now_ne (i : Instant) : i.now ≠ "" := by
  intro h
  have hlist := congrArg String.toList h
  simp [Instant.now, Instant.head, pad4, pad2] at hlist

/-- `ds, ts = today(), now()`. -/
def stampOf (d t : Instant) : Stamp := ⟨d.today, t.now, now_ne t⟩

/-! ## The clock of the engine -/

/-- Twelve hexadecimal digits of a fresh `uuid4`. -/
abbrev Hex := { hex : List Char // IsHex hex }

/-- The engine beside its clock: the number of the last reading, and the task records made so far. -/
structure Clocked where
  batch : Batch
  tick : Nat
  made : List Task

def Clocked.init : Clocked := ⟨Batch.init, 0, []⟩

inductive ClockLabel where
  | batch (l : BatchLabel)
  | stamp (d t : Instant)
  | records (t : Instant) (ids : List (Instant × Hex))
  | born (op : String) (state : TaskState) (query : Option String) (d t : Instant) (hex : Hex)

/-- What a step reads off the clock, in the order it does. -/
def ClockLabel.readings : ClockLabel → List Instant
  | .batch _ => []
  | .stamp d t => [d, t]
  | .records t ids => t :: ids.map Prod.fst
  | .born _ _ _ d t _ => [d, t]

/-- A step of the worker that reads no clock, and none of a rebuild's that writes. -/
def BatchLabel.clockless : BatchLabel → Bool
  | .sys (.plan _) | .sys (.replay _) => false
  | _ => true

def Op.kind : Op → String
  | .insert _ _ _ => "insert"
  | .delete _ _ _ => "delete"

/-- A record born without a result: `submit`, `adopt`. -/
def bornTask (op : String) (state : TaskState) (query : Option String) (d t : Instant) (hex : Hex) :
    Task where
  id := newTaskId d.today hex.1
  op := op
  state := state
  error := none
  matched := none
  stats := none
  query := query
  rows := none
  submittedAt := some t.now
  finishedAt := none

/-- The done record of a write of a batch. -/
def doneTask (t : Instant) (r : Report) (id : Instant × Hex) : Task where
  id := newTaskId id.1.today id.2.1
  op := r.op.kind
  state := .done
  error := none
  matched := r.decision.matched
  stats := none
  query := none
  rows := none
  submittedAt := some t.now
  finishedAt := some t.now

section Step

variable (env : Env) (schema : Schema)

def Clocked.move (c : Clocked) : ClockLabel → Option Clocked
  | .batch l =>
    if l.clockless then (batchStep env schema c.batch l).map fun b => { c with batch := b } else none
  | .stamp d t =>
    (batchStep env schema c.batch (.sys (.plan (stampOf d t)))).map fun b => { c with batch := b }
  -- the snapshots are behind the worker, the appends of these records before it
  | .records t ids =>
    match c.batch.sys.worker, c.batch.sys.touched with
    | .idle, [] =>
      if ids.length = c.batch.finished.length then
        some { c with made := c.made ++ List.zipWith (doneTask t) c.batch.finished ids }
      else none
    | _, _ => none
  | .born op state query d t hex => some { c with made := c.made ++ [bornTask op state query d t hex] }

/-- A step on a clock that does not go back. -/
def clockStep (c : Clocked) (l : ClockLabel) : Option Clocked :=
  if (c.tick :: l.readings.map Instant.number).IsChain (· ≤ ·) then
    (c.move env schema l).map fun c' =>
      { c' with tick := (l.readings.map Instant.number).getLastD c.tick }
  else none

end Step

/-- The readings of a step that are taken for one lie on one UTC day. -/
def ClockLabel.SameDay : ClockLabel → Prop
  | .batch _ => True
  | .stamp d t | .born _ _ _ d t _ => d.today = t.today
  | .records t ids => ∀ id ∈ ids, id.1.today = t.today

/-! ## Pairs that are read as one -/

section Pairs

variable (P : String → String → Prop)

/-- The instants a line bears are related to its partition. -/
structure Line.Dated (l : Line) : Prop where
  created : ∀ ts, l.members.get "created_at" = .str ts → P l.ds ts
  deleted : ∀ ts, l.members.get "deleted_at" = .str ts → P l.ds ts

/-- So are those of a record that will be appended. -/
def Act.Dated : Act → Prop
  | .append ds _ line => ∀ c ∈ ["created_at", "deleted_at"], ∀ ts,
      (line.get c).toJson? = some (.str ts) → P ds ts
  | _ => True

/-- An id and an instant that are related. -/
def Task.Dated (t : Task) : Prop :=
  ∃ day ts, dsOf t.id = some day ∧ t.submittedAt = some ts ∧ P day ts

end Pairs

section Keeps

variable {P : String → String → Prop} {env : Env} {schema : Schema}

theorem put_dated (spec : TableSpec) (r : Record) {ds ts : String} (h : P ds ts) (table : String) :
    (Act.append ds table (putLine spec r ds ts)).Dated P := by
  intro c hc ts' hts
  rcases List.mem_pair.mp hc with rfl | rfl
  · rw [putLine_createdAt] at hts
    cases hts
    exact h
  · -- no column of a table is called like a column of the engine
    have hnone : lookup "deleted_at" (putLine spec r ds ts) = none := by
      rw [lookup_none_iff, putLine_names, List.mem_append]
      rintro (hcol | hmeta)
      · exact spec.not_mem_meta hcol (by decide)
      · exact absurd hmeta (by decide)
    simp [Record.get, hnone, Val.toJson?] at hts

theorem tombstone_dated (k : Val) {ds ts : String} (h : P ds ts) (table : String) :
    (Act.append ds table (tombstone k ts)).Dated P := by
  intro c hc ts' hts
  rcases List.mem_pair.mp hc with rfl | rfl
  · cases hts
  · cases hts
    exact h

/-- What an operation appends bears its stamp. -/
theorem plan_dated {st : Stamp} (h : P st.ds st.ts) {d : Decision} {acts : List Act}
    (hplan : plan env st d = .ok acts) : ∀ a ∈ acts, a.Dated P := by
  intro a ha
  cases d with
  | records spec rs =>
    rcases plan_records hplan with rfl | ⟨emb, -, rfl⟩
    · cases ha
    · rcases mem_insertActs ha with ⟨r, -, rfl⟩ | ⟨i, r, -, rfl⟩ | rfl
      · exact put_dated spec r h spec.name
      · trivial
      · trivial
  | keys spec ks =>
    obtain rfl := Except.ok.inj hplan
    rcases mem_deleteActs ha with ⟨k, -, rfl⟩ | rfl
    · exact tombstone_dated k h spec.name
    · trivial

theorem exec_dated {a : Act} {db db' : Db} (hlines : ∀ l ∈ db.files, l.Dated P) (ha : a.Dated P)
    (h : exec env a db = .ok db') : ∀ l ∈ db'.files, l.Dated P := by
  rw [exec_files h]
  intro l hl
  rcases List.mem_append.mp hl with hl | hl
  · exact hlines l hl
  · cases a with
    | append ds table line =>
      obtain ⟨m, hm, rfl⟩ := Option.map_eq_some_iff.mp (Option.mem_toList.mp hl)
      constructor
      · intro ts hts
        exact ha "created_at" List.mem_cons_self ts (by rw [toMembers?_get hm, ← hts])
      · intro ts hts
        exact ha "deleted_at" (by simp) ts (by rw [toMembers?_get hm, ← hts])
    | _ => cases hl

/-- What is kept of the store: the lines of every row are in the mirror, the lines are dated, and the
worker's acts will keep it so. -/
structure System.Dated (P : String → String → Prop) (env : Env) (schema : Schema) (s : System) :
    Prop where
  mirrored : Mirrored env schema s.db
  lines : ∀ l ∈ s.db.files, l.Dated P
  worker : s.worker.Holds (Decision.Of schema)
    (fun files todo => Backed env schema files todo ∧ ∀ a ∈ todo, a.Dated P) s.db.files

/-- A step that reads no clock. -/
theorem moves_dated {s t : System} {l : Label} (h : s.Dated P env schema) (hl : ∀ st, l ≠ .plan st)
    (hm : Moves env schema s l t) : t.Dated P env schema := by
  cases hm with
  | take hw => exact ⟨h.mirrored, h.lines, trivial⟩
  | @decide op hw =>
    refine ⟨h.mirrored, h.lines, ?_⟩
    show (Worker.decide env schema s.db op).Holds _ _ _
    unfold Worker.decide
    split
    · next d hd => exact decide_of hd
    · trivial
  | plan hw => exact absurd rfl (hl _)
  | write hw he =>
    have hacts := h.worker
    rw [hw] at hacts
    obtain ⟨hbacked, hdated⟩ := hacts
    refine ⟨exec_mirrored h.mirrored hbacked.1 he, exec_dated h.lines (hdated _ List.mem_cons_self) he, ?_⟩
    exact ⟨exec_along hbacked he, fun b hb => hdated b (List.mem_cons_of_mem _ hb)⟩
  | refuse hw he => exact ⟨h.mirrored, h.lines, trivial⟩
  | fault hw => exact ⟨h.mirrored, h.lines, trivial⟩
  | finish hw => exact ⟨h.mirrored, h.lines, trivial⟩
  | @refresh spec rest db hw ht he =>
    have hbacked : (Act.rebuildFts spec).Backed env schema s.db.files := trivial
    have hdated : (Act.rebuildFts spec).Dated P := trivial
    refine ⟨exec_mirrored h.mirrored hbacked he, exec_dated h.lines hdated he, ?_⟩
    show s.worker.Holds _ _ _
    rw [hw]
    trivial
  | skip hw ht hl => exact ⟨h.mirrored, h.lines, h.worker⟩
  | settle hw ht => exact ⟨h.mirrored, h.lines, h.worker⟩
  | background hl => exact ⟨h.mirrored, h.lines, h.worker⟩
  | crash => exact ⟨h.mirrored, h.lines, trivial⟩

/-- The step that stamps an operation. -/
theorem plan_step_dated {s t : System} {st : Stamp} (h : s.Dated P env schema) (hst : P st.ds st.ts)
    (hs : step env schema s (.plan st) = some t) : t.Dated P env schema := by
  simp only [step] at hs
  split at hs
  · next d hw =>
    obtain rfl := Option.some.inj hs
    have hd := h.worker
    rw [hw] at hd
    refine ⟨h.mirrored, h.lines, ?_⟩
    show (Worker.plan env st d).Holds _ _ _
    unfold Worker.plan
    split
    · next acts hacts => exact ⟨plan_backed hd hacts, plan_dated hst hacts⟩
    · trivial
  · cases hs

theorem batch_step_dated {b b' : Batch} {l : BatchLabel} (h : b.sys.Dated P env schema)
    (hl : l.clockless = true) (hs : batchStep env schema b l = some b') : b'.sys.Dated P env schema := by
  cases l with
  | sys l =>
    obtain ⟨-, s, hstep, rfl⟩ := batchStep_sys hs
    have hreplay : ∀ i, l ≠ .replay i := by
      rintro i rfl
      cases hl
    refine moves_dated h ?_ (step_moves hreplay hstep)
    rintro st rfl
    cases hl
  | log =>
    obtain ⟨-, r, rest, -, rfl⟩ := batchStep_log hs
    exact h
  | logFault =>
    obtain ⟨-, rfl⟩ := batchStep_logFault hs
    exact ⟨h.mirrored, h.lines, h.worker⟩

theorem mem_records {t : Instant} {rs : List Report} {ids : List (Instant × Hex)} {task : Task}
    (h : task ∈ List.zipWith (doneTask t) rs ids) : ∃ r, ∃ id ∈ ids, task = doneTask t r id := by
  induction rs generalizing ids with
  | nil => cases h
  | cons r rs ih =>
    cases ids with
    | nil => cases h
    | cons id ids =>
      rcases List.mem_cons.mp h with rfl | h
      · exact ⟨r, id, List.mem_cons_self, rfl⟩
      · obtain ⟨r', id', hid', heq⟩ := ih h
        exact ⟨r', id', List.mem_cons_of_mem id hid', heq⟩

/-- The pairs of a step that are taken for one reading are related. -/
def ClockLabel.Paired (P : String → String → Prop) : ClockLabel → Prop
  | .batch _ => True
  | .stamp d t | .born _ _ _ d t _ => P d.today t.now
  | .records t ids => ∀ id ∈ ids, P id.1.today t.now

structure Clocked.Dated (P : String → String → Prop) (env : Env) (schema : Schema) (c : Clocked) :
    Prop where
  sys : c.batch.sys.Dated P env schema
  tasks : ∀ t ∈ c.made, t.Dated P

theorem init_dated : Clocked.init.Dated P env schema where
  sys := by
    refine ⟨⟨?_, ?_⟩, ?_, trivial⟩
    · exact fun l hl => absurd hl (by simp [Clocked.init, Batch.init, System.init, Db.init])
    · exact fun spec _ row hrow => absurd hrow
        (by simp [Clocked.init, Batch.init, System.init, Db.init, Db.shown, PhysTable.empty])
    · exact fun l hl => absurd hl (by simp [Clocked.init, Batch.init, System.init, Db.init])
  tasks := fun t ht => absurd ht (by simp [Clocked.init])

/-- A step of the clocked engine, one case for each label. -/
theorem clock_step_dated {c c' : Clocked} {l : ClockLabel} (h : c.Dated P env schema)
    (hl : l.Paired P) (hs : clockStep env schema c l = some c') : c'.Dated P env schema := by
  unfold clockStep at hs
  split at hs
  · obtain ⟨c', hmove, rfl⟩ := Option.map_eq_some_iff.mp hs
    show Clocked.Dated P env schema ⟨c'.batch, _, c'.made⟩
    suffices hkept : c'.Dated P env schema from ⟨hkept.sys, hkept.tasks⟩
    cases l with
    | batch l =>
      simp only [Clocked.move] at hmove
      split at hmove
      · next hclock =>
        obtain ⟨b, hb, rfl⟩ := Option.map_eq_some_iff.mp hmove
        exact ⟨batch_step_dated h.sys hclock hb, h.tasks⟩
      · cases hmove
    | stamp d t =>
      obtain ⟨b, hb, rfl⟩ := Option.map_eq_some_iff.mp hmove
      obtain ⟨-, s, hstep, rfl⟩ := batchStep_sys hb
      have hst : P (stampOf d t).ds (stampOf d t).ts := hl
      exact ⟨plan_step_dated h.sys hst hstep, h.tasks⟩
    | records t ids =>
      simp only [Clocked.move] at hmove
      split at hmove
      · split at hmove
        · obtain rfl := Option.some.inj hmove
          refine ⟨h.sys, fun task htask => ?_⟩
          rcases List.mem_append.mp htask with htask | htask
          · exact h.tasks task htask
          · obtain ⟨r, id, hid, rfl⟩ := mem_records htask
            exact ⟨id.1.today, t.now, dsOf_newTaskId id.1 id.2.2, rfl, hl id hid⟩
        · cases hmove
      · cases hmove
    | born op state query d t hex =>
      obtain rfl := Option.some.inj hmove
      refine ⟨h.sys, fun task htask => ?_⟩
      rcases List.mem_append.mp htask with htask | htask
      · exact h.tasks task htask
      · obtain rfl := List.mem_singleton.mp htask
        exact ⟨d.today, t.now, dsOf_newTaskId d hex.2, rfl, hl⟩
  · cases hs

/-- The pairs that every row, tombstone and task of a run keeps are related as those it read. -/
theorem clock_run_dated {labels : List ClockLabel} {c : Clocked}
    (hpaired : Guarded (clockStep env schema) (fun _ l => l.Paired P) Clocked.init labels)
    (hrun : run (clockStep env schema) Clocked.init labels = some c) : c.Dated P env schema :=
  run_guarded (fun _ _ _ hc hl hstep => clock_step_dated hc hl hstep) init_dated hpaired hrun

end Keeps

/-! ## Days and instants -/

section OneDay

variable (env : Env) (schema : Schema)

/-- A row whose days are those of its instants, and the partitions of its lines. -/
structure Row.OneDay (files : Files) (spec : TableSpec) (row : Row) : Prop where
  created : ∃ ts, row.createdAt = some ts ∧ row.ds = some (dayOf ts)
  put : ∃ line ∈ files, line.table = spec.name ∧ row.ds = some line.ds
    ∧ ∃ r ts, (putLine spec r line.ds ts).toMembers? = some line.members
      ∧ env.stored spec r (strVal line.ds) (strVal ts) = .ok row.shown.unmarked
  deleted : ∀ ds, row.deletedDs = some ds → ∃ ts, row.deletedAt = some ts ∧ ds = dayOf ts
  tombstone : ∀ ds, row.deletedDs = some ds → ∃ key, row.key.text = some key
    ∧ HasTombstone env files spec key ds row.deletedAt

/-- Every row is so, and every task's id has the day its record was submitted on. -/
structure Clocked.OneDay (c : Clocked) : Prop where
  rows : ∀ spec ∈ schema.tables, ∀ row ∈ (c.batch.sys.db.tables spec.name).rows,
    row.OneDay env c.batch.sys.db.files spec
  tasks : ∀ t ∈ c.made, ∃ ts, t.submittedAt = some ts ∧ dsOf t.id = some (dayOf ts)

variable {env schema}

/-- A row's pairs are those of its lines. -/
theorem covered_pairs {P : String → String → Prop} {files : Files} {spec : TableSpec} {row : Row}
    (hlines : ∀ l ∈ files, l.Dated P) (h : Covered env files spec row.shown) :
    (∃ ds ts, row.ds = some ds ∧ row.createdAt = some ts ∧ P ds ts)
      ∧ ∀ ds, row.deletedDs = some ds → ∃ ts, row.deletedAt = some ts ∧ P ds ts := by
  constructor
  · obtain ⟨ds, ts, m, hl, -, hcreated, hds, hts⟩ := h.put.columns
    exact ⟨ds, ts, hds, hts, (hlines _ hl).created ts hcreated⟩
  · intro ds hds
    obtain ⟨key, -, k, ts, m, hm, hl, -, hat⟩ := h.mark ds hds
    obtain ⟨j, -, rfl⟩ := tombstone_members hm
    exact ⟨ts, hat, (hlines _ hl).deleted ts rfl⟩

/-- On a clock that never goes back, in every run of the worker, its crashes and faults, and the births
of tasks, in which no midnight falls between two readings taken for one: the days of every row, every
tombstone and every task are those of its instants, and the partitions are those days. -/
theorem days_agree {labels : List ClockLabel} {c : Clocked}
    (hsame : ∀ l ∈ labels, l.SameDay)
    (hrun : run (clockStep env schema) Clocked.init labels = some c) : c.OneDay env schema := by
  have hpaired : Guarded (clockStep env schema)
      (fun _ l => l.Paired fun ds ts => ds = dayOf ts) Clocked.init labels := by
    refine Guarded.of_forall fun l hmem _ => ?_
    have hl := hsame l hmem
    have hday {d t : Instant} (h : d.today = t.today) : d.today = dayOf t.now := by
      rw [dayOf_now, h]
    cases l with
    | batch l => trivial
    | stamp d t => exact hday hl
    | records t ids => exact fun id hid => hday (hl id hid)
    | born op state query d t hex => exact hday hl
  have hdated := clock_run_dated hpaired hrun
  constructor
  · intro spec hspec row hrow
    have hcov := hdated.sys.mirrored.rows spec hspec row.shown (List.mem_map_of_mem hrow)
    obtain ⟨⟨ds, ts, hds, hts, hday⟩, hdeleted⟩ := covered_pairs hdated.sys.lines hcov
    subst hday
    refine ⟨⟨ts, hts, hds⟩, ?_, hdeleted, hcov.mark⟩
    obtain ⟨r, ds', ts', m, hm, hl, hstored⟩ := hcov.put
    refine ⟨_, hl, rfl, ?_, r, ts', hm, hstored⟩
    obtain ⟨_, _, d, _, -, -, hd, -, heq⟩ := stored_ok_iff.mp hstored
    rw [env.bindText_str] at hd
    obtain rfl := Option.some.inj hd
    show row.shown.shown.unmarked.ds = some ds'
    rw [heq]
  · intro t ht
    obtain ⟨day, ts, hid, hts, rfl⟩ := hdated.tasks t ht
    exact ⟨ts, hts, hid⟩

end OneDay

/-! ## Two notes -/

/-- A note is written and its batch ends, and a query is submitted. -/
def noteLabels (d t : Instant) : List ClockLabel :=
  [.batch (.sys (.take (.insert "notes" [[("id", strVal "n1")]] false))), .batch (.sys .decide),
    .stamp d t, .batch (.sys .write), .batch (.sys .write), .batch (.sys .finish),
    .records t [(t, ⟨aHex, aHex_isHex⟩)], .batch .log, .batch (.sys .settle),
    .born "query" .pending (some "scan notes") t t ⟨aHex, aHex_isHex⟩]

theorem noteLabels_same {d t : Instant} (h : d.today = t.today) : ∀ l ∈ noteLabels d t, l.SameDay := by
  intro l hl
  simp only [noteLabels, List.mem_cons, List.not_mem_nil, or_false] at hl
  rcases hl with rfl | rfl | rfl | rfl | rfl | rfl | rfl | rfl | rfl | rfl
  case inr.inr.inl => exact h
  case inr.inr.inr.inr.inr.inr.inl => exact fun id hid => by rw [List.mem_singleton.mp hid]
  all_goals trivial

theorem days_agree_noon : ∃ c, run (clockStep plainEnv notesSchema) Clocked.init (noteLabels morning morning)
      = some c ∧ (c.batch.sys.db.tables "notes").rows ≠ [] ∧ c.made.length = 2
    ∧ c.OneDay plainEnv notesSchema := by
  have hsome : ((run (clockStep plainEnv notesSchema) Clocked.init (noteLabels morning morning)).map
      fun c => ((c.batch.sys.db.tables "notes").rows.isEmpty, c.made.length)) = some (false, 2) := by
    decide +kernel
  obtain ⟨c, hrun, hc⟩ := Option.map_eq_some_iff.mp hsome
  obtain ⟨hrows, hmade⟩ := Prod.mk.inj hc
  refine ⟨c, hrun, fun hnil => ?_, hmade, days_agree (noteLabels_same rfl) hrun⟩
  rw [hnil] at hrows
  cases hrows

def thirdOfJanuary : Date where
  year := 2026
  month := 1
  day := 3
  yearIn := secondOfJanuary.yearIn
  monthIn := secondOfJanuary.monthIn
  dayIn := by decide

/-- The last microsecond of the second of January, and the first of the third. -/
def lastOfSecond : Instant :=
  ⟨secondOfJanuary, 23, 59, 59, 999999, by decide, by decide, by decide, by decide⟩

def firstOfThird : Instant :=
  ⟨thirdOfJanuary, 0, 0, 0, 0, by decide, morning.secondIn, morning.secondIn, morning.microIn⟩

/-- With a midnight between `today()` and `now()` the note is of the second and created on the third. -/
theorem midnight_splits : ∃ c, run (clockStep plainEnv notesSchema) Clocked.init
      (noteLabels lastOfSecond firstOfThird) = some c
    ∧ (∃ row ∈ (c.batch.sys.db.tables "notes").rows, row.ds = some "20260102"
      ∧ row.createdAt = some "2026-01-03T00:00:00+00:00" ∧ dayOf "2026-01-03T00:00:00+00:00" = "20260103")
    ∧ ¬ c.OneDay plainEnv notesSchema := by
  have hsome : ((run (clockStep plainEnv notesSchema) Clocked.init
      (noteLabels lastOfSecond firstOfThird)).map fun c => (c.batch.sys.db.tables notes.name).rows)
      = some [⟨.varchar "n1", [.varchar "n1", .null], some "20260102",
        some "2026-01-03T00:00:00+00:00", none, none, []⟩] := by decide +kernel
  obtain ⟨c, hrun, hrows⟩ := Option.map_eq_some_iff.mp hsome
  have hday : dayOf "2026-01-03T00:00:00+00:00" = "20260103" := by decide +kernel
  refine ⟨c, hrun, ⟨_, hrows ▸ List.mem_cons_self, rfl, rfl, hday⟩, fun h => ?_⟩
  obtain ⟨ts, hts, hds⟩ := (h.rows notes List.mem_cons_self _ (hrows ▸ List.mem_cons_self)).created
  obtain rfl := Option.some.inj hts
  rw [hday] at hds
  exact absurd hds (by decide)

end Seekbase
