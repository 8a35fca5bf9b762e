/-
# Seekbase.System — the write worker, the rebuild tasks and the process they run in.

The worker takes one operation after another; rebuilds run beside it as background tasks, any number
of them.  A step is what happens between two awaits: a decision, a plan, one line, one statement, one
table's events.  Every schedule of these steps is a run of `step`, and a crash may end the process
after any of them.

* `Worker`  — taken, decided, acting with the acts it has done and those it still has to do;
* `Rebuild` — reading with the snapshots it has, acting, or ended;
* `System`  — both over one `Db`, with the lines of finished operations (`executed`) that become
              `acked` when the batch they are in resolves its futures;
* `Moves`   — a step by what it does, which is how the proofs take it apart;
* `Stable`  — the rule a result about all schedules is proved by: say of each program what it relies
              on, and that no other program takes it away.

The embedding of a rebuild's puts reads and writes nothing another step does, so a table's read and
its embedding are one step.
-/
import Seekbase.Lib.Run
import Seekbase.Replay

namespace Seekbase

open JsonText Transition

/-- Where the worker is with the operation it has taken off the queue. -/
inductive Worker where
  | idle
  | taken (op : Op)
  | decided (d : Decision)
  | acting (fts : Option TableSpec) (done todo : List Act)

/-- Where a rebuild task is.  `now` is what the clock will read at each row without `created_at`. -/
inductive Rebuild where
  | reading (now : String → Nat → String) (todo : List TableSpec) (snaps : List Snap)
  | acting (snaps : List Snap) (todo : List Act)
  | done (stats : Stats)
  | failed (e : Exc)
  | stopped

structure System where
  db : Db
  worker : Worker
  /-- The lines of operations that have run and whose futures wait for the end of the batch. -/
  executed : List Line
  /-- The tables whose full-text snapshot the end of the batch rebuilds. -/
  touched : List TableSpec
  rebuilds : List Rebuild
  /-- The lines of acknowledged operations. -/
  acked : List Line

def System.init : System := ⟨Db.init, .idle, [], [], [], []⟩

inductive Label where
  | take (op : Op)
  | decide
  | plan (st : Stamp)
  | write
  | fault
  | finish
  | refresh
  | refreshFault
  | settle
  | rebuild (now : String → Nat → String)
  | read (i : Nat)
  | replay (i : Nat)
  | stop (i : Nat)
  | crash

/-- The table whose full-text snapshot an operation leaves to the end of its batch. -/
def Decision.fts (env : Env) : Decision → Option TableSpec
  | .records spec (_ :: _) => if env.embedder.isSome then some spec else none
  | _ => none

def Worker.decide (env : Env) (schema : Schema) (db : Db) (op : Op) : Worker :=
  match decideOp env schema db.tables op with
  | .ok d => .decided d
  | .error _ => .idle

def Worker.plan (env : Env) (st : Stamp) (d : Decision) : Worker :=
  match Seekbase.plan env st d with
  | .ok acts => .acting (d.fts env) [] acts
  | .error _ => .idle

def Rebuild.read (env : Env) (files : Files) (now : String → Nat → String) (spec : TableSpec)
    (todo : List TableSpec) (snaps : List Snap) : Rebuild :=
  match snapshot env spec files with
  | .ok s => .reading now todo (snaps ++ [s])
  | .error e => .failed e

def System.setRebuild (s : System) (i : Nat) (r : Rebuild) : System :=
  { s with rebuilds := s.rebuilds.set i r }

/-- One step of a rebuild's second phase. -/
def System.replay (env : Env) (schema : Schema) (s : System) (i : Nat) : Rebuild → Option System
  | .reading now [] snaps => some (s.setRebuild i (.acting snaps (replayActs env schema now snaps)))
  | .acting snaps (a :: todo) =>
    match exec env a s.db with
    | .ok db => some ({ s with db := db }.setRebuild i (.acting snaps todo))
    | .error e => some (s.setRebuild i (.failed e))
  | .acting snaps [] => some (s.setRebuild i (.done (statsOf snaps)))
  | _ => none

/-- Whether a rebuild task still runs. -/
def Rebuild.live : Rebuild → Bool
  | .reading .. | .acting .. => true
  | _ => false

def step (env : Env) (schema : Schema) (s : System) : Label → Option System
  | .take op =>
    match s.worker with
    | .idle => some { s with worker := .taken op }
    | _ => none
  | .decide =>
    match s.worker with
    | .taken op => some { s with worker := .decide env schema s.db op }
    | _ => none
  | .plan st =>
    match s.worker with
    | .decided d => some { s with worker := .plan env st d }
    | _ => none
  | .write =>
    match s.worker with
    | .acting fts done (a :: todo) =>
      match exec env a s.db with
      | .ok db => some { s with db := db, worker := .acting fts (done ++ [a]) todo }
      | .error _ => some { s with worker := .idle }
    | _ => none
  -- the disk, the bridge or DuckDB fails the act the worker is at
  | .fault =>
    match s.worker with
    | .acting .. => some { s with worker := .idle }
    | _ => none
  | .finish =>
    match s.worker with
    | .acting fts done [] =>
      some { s with
        worker := .idle
        executed := s.executed ++ done.flatMap Act.lines
        touched := s.touched ++ fts.toList }
    | _ => none
  | .refresh =>
    match s.worker, s.touched with
    | .idle, spec :: rest =>
      match exec env (.rebuildFts spec) s.db with
      | .ok db => some { s with db := db, touched := rest }
      | .error _ => some { s with touched := rest }
    | _, _ => none
  -- DuckDB fails a snapshot: the error of `rebuild_fts` is suppressed, and the batch goes on
  | .refreshFault =>
    match s.worker, s.touched with
    | .idle, _ :: rest => some { s with touched := rest }
    | _, _ => none
  | .settle =>
    match s.worker, s.touched with
    | .idle, [] => some { s with acked := s.acked ++ s.executed, executed := [] }
    | _, _ => none
  | .rebuild now => some { s with rebuilds := s.rebuilds ++ [.reading now schema.tables []] }
  | .read i =>
    match s.rebuilds[i]? with
    | some (.reading now (spec :: todo) snaps) =>
      some (s.setRebuild i (.read env s.db.files now spec todo snaps))
    | _ => none
  | .replay i => s.rebuilds[i]?.bind (s.replay env schema i)
  -- the timeout, a cancel, or close
  | .stop i =>
    match s.rebuilds[i]? with
    | some r => if r.live then some (s.setRebuild i .stopped) else none
    | none => none
  | .crash => some { s with worker := .idle, executed := [], touched := [], rebuilds := [] }

/-- The steps of an operation of `n` acts, acknowledged on its own. -/
def opLabels (st : Stamp) (op : Op) (n : Nat) : List Label :=
  [.take op, .decide, .plan st] ++ List.replicate n .write ++ [.finish, .settle]

/-- Nothing is under way and no future waits. -/
def System.Settled (s : System) : Prop :=
  s.worker = .idle ∧ s.executed = [] ∧ ∀ r ∈ s.rebuilds, r.live = false

instance Worker.decidableIdle : (w : Worker) → Decidable (w = .idle)
  | .idle => isTrue rfl
  | .taken _ | .decided _ | .acting _ _ _ => isFalse (by simp)

instance (s : System) : Decidable s.Settled := inferInstanceAs (Decidable (_ ∧ _ ∧ _))

/-! ## What a step does -/

/-- A step of the rebuild tasks that writes nothing. -/
def Label.Background : Label → Prop
  | .rebuild _ | .read _ | .stop _ => True
  | _ => False

/-- What a step that replays nothing does, with what it takes to be enabled. -/
inductive Moves (env : Env) (schema : Schema) (s : System) : Label → System → Prop
  | take {op : Op} (hw : s.worker = .idle) : Moves env schema s (.take op) { s with worker := .taken op }
  | decide {op : Op} (hw : s.worker = .taken op) :
    Moves env schema s .decide { s with worker := .decide env schema s.db op }
  | plan {st : Stamp} {d : Decision} (hw : s.worker = .decided d) :
    Moves env schema s (.plan st) { s with worker := .plan env st d }
  | write {fts : Option TableSpec} {done todo : List Act} {a : Act} {db : Db}
    (hw : s.worker = .acting fts done (a :: todo)) (he : exec env a s.db = .ok db) :
    Moves env schema s .write { s with db := db, worker := .acting fts (done ++ [a]) todo }
  | refuse {fts : Option TableSpec} {done todo : List Act} {a : Act} {e : Exc}
    (hw : s.worker = .acting fts done (a :: todo)) (he : exec env a s.db = .error e) :
    Moves env schema s .write { s with worker := .idle }
  | fault {fts : Option TableSpec} {done todo : List Act} (hw : s.worker = .acting fts done todo) :
    Moves env schema s .fault { s with worker := .idle }
  | finish {fts : Option TableSpec} {done : List Act} (hw : s.worker = .acting fts done []) :
    Moves env schema s .finish { s with
      worker := .idle
      executed := s.executed ++ done.flatMap Act.lines
      touched := s.touched ++ fts.toList }
  | refresh {spec : TableSpec} {rest : List TableSpec} {db : Db} (hw : s.worker = .idle)
    (ht : s.touched = spec :: rest) (he : exec env (.rebuildFts spec) s.db = .ok db) :
    Moves env schema s .refresh { s with db := db, touched := rest }
  | skip {spec : TableSpec} {rest : List TableSpec} {l : Label} (hw : s.worker = .idle)
    (ht : s.touched = spec :: rest) (hl : l = .refresh ∨ l = .refreshFault) :
    Moves env schema s l { s with touched := rest }
  | settle (hw : s.worker = .idle) (ht : s.touched = []) :
    Moves env schema s .settle { s with acked := s.acked ++ s.executed, executed := [] }
  | background {l : Label} {rebuilds : List Rebuild} (hl : l.Background) :
    Moves env schema s l { s with rebuilds := rebuilds }
  | crash : Moves env schema s .crash
      { s with worker := .idle, executed := [], touched := [], rebuilds := [] }

theorem step_moves {env : Env} {schema : Schema} {s t : System} {l : Label}
    (hl : ∀ i, l ≠ .replay i) (hs : step env schema s l = some t) : Moves env schema s l t := by
  cases l with
  | take op =>
    simp only [step] at hs
    split at hs
    · next hw => exact Option.some.inj hs ▸ .take hw
    · cases hs
  | decide =>
    simp only [step] at hs
    split at hs
    · next op hw => exact Option.some.inj hs ▸ .decide hw
    · cases hs
  | plan st =>
    simp only [step] at hs
    split at hs
    · next d hw => exact Option.some.inj hs ▸ .plan hw
    · cases hs
  | write =>
    simp only [step] at hs
    split at hs
    · next fts done a todo hw =>
      split at hs
      · next db he => exact Option.some.inj hs ▸ .write hw he
      · next e he => exact Option.some.inj hs ▸ .refuse hw he
    · cases hs
  | fault =>
    simp only [step] at hs
    split at hs
    · next hw => exact Option.some.inj hs ▸ .fault hw
    · cases hs
  | finish =>
    simp only [step] at hs
    split at hs
    · next hw => exact Option.some.inj hs ▸ .finish hw
    · cases hs
  | refresh =>
    simp only [step] at hs
    split at hs
    · next spec rest hw ht =>
      split at hs
      · next db he => exact Option.some.inj hs ▸ .refresh hw ht he
      · exact Option.some.inj hs ▸ .skip hw ht (Or.inl rfl)
    · cases hs
  | refreshFault =>
    simp only [step] at hs
    split at hs
    · next hw ht => exact Option.some.inj hs ▸ .skip hw ht (Or.inr rfl)
    · cases hs
  | settle =>
    simp only [step] at hs
    split at hs
    · next hw ht => exact Option.some.inj hs ▸ .settle hw ht
    · cases hs
  | rebuild now => exact Option.some.inj hs ▸ .background trivial
  | read i =>
    simp only [step] at hs
    split at hs
    · exact Option.some.inj hs ▸ .background trivial
    · cases hs
  | replay i => exact absurd rfl (hl i)
  | stop i =>
    simp only [step] at hs
    split at hs
    · split at hs
      · exact Option.some.inj hs ▸ .background trivial
      · cases hs
    · cases hs
  | crash => exact Option.some.inj hs ▸ .crash

/-- What a replay of a rebuild task does. -/
inductive Replays (env : Env) (schema : Schema) (s : System) (i : Nat) : Rebuild → System → Prop
  | start {now : String → Nat → String} {snaps : List Snap} :
    Replays env schema s i (.reading now [] snaps)
      (s.setRebuild i (.acting snaps (replayActs env schema now snaps)))
  | act {snaps : List Snap} {a : Act} {todo : List Act} {db : Db} (he : exec env a s.db = .ok db) :
    Replays env schema s i (.acting snaps (a :: todo))
      ({ s with db := db }.setRebuild i (.acting snaps todo))
  | refuse {snaps : List Snap} {a : Act} {todo : List Act} {e : Exc}
    (he : exec env a s.db = .error e) :
    Replays env schema s i (.acting snaps (a :: todo)) (s.setRebuild i (.failed e))
  | finish {snaps : List Snap} :
    Replays env schema s i (.acting snaps []) (s.setRebuild i (.done (statsOf snaps)))

theorem replay_replays {env : Env} {schema : Schema} {s t : System} {i : Nat} {r : Rebuild}
    (hs : s.replay env schema i r = some t) : Replays env schema s i r t := by
  unfold System.replay at hs
  split at hs
  · exact Option.some.inj hs ▸ .start
  · split at hs
    · next db he => exact Option.some.inj hs ▸ .act he
    · next e he => exact Option.some.inj hs ▸ .refuse he
  · exact Option.some.inj hs ▸ .finish
  · cases hs

/-- A step replays a rebuild, or is one of the others. -/
theorem step_cases {env : Env} {schema : Schema} {s t : System} {l : Label}
    (hs : step env schema s l = some t) :
    (∃ i r, l = .replay i ∧ s.rebuilds[i]? = some r ∧ Replays env schema s i r t)
      ∨ Moves env schema s l t := by
  by_cases hl : ∀ i, l ≠ .replay i
  · exact Or.inr (step_moves hl hs)
  · rcases not_forall_not.mp hl with ⟨i, rfl⟩
    rcases Option.bind_eq_some_iff.mp hs with ⟨r, hi, hr⟩
    exact Or.inl ⟨i, r, rfl, hi, replay_replays hr⟩

/-- The steps of a rebuild that write nothing: it starts, it reads a table, it is stopped. -/
theorem background_cases {env : Env} {schema : Schema} {s t : System} {l : Label}
    (hl : l.Background) (hs : step env schema s l = some t) :
    (∃ now, l = .rebuild now
        ∧ t = { s with rebuilds := s.rebuilds ++ [.reading now schema.tables []] })
      ∨ (∃ i now spec todo snaps, l = .read i
        ∧ s.rebuilds[i]? = some (.reading now (spec :: todo) snaps)
        ∧ t = s.setRebuild i (.read env s.db.files now spec todo snaps))
      ∨ ∃ i, l = .stop i ∧ t = s.setRebuild i .stopped := by
  cases l with
  | rebuild now => exact Or.inl ⟨now, rfl, (Option.some.inj hs).symm⟩
  | read i =>
    simp only [step] at hs
    split at hs
    · next now spec todo snaps hi =>
      exact Or.inr (Or.inl ⟨i, now, spec, todo, snaps, rfl, hi, (Option.some.inj hs).symm⟩)
    · cases hs
  | stop i =>
    simp only [step] at hs
    split at hs
    · split at hs
      · exact Or.inr (Or.inr ⟨i, rfl, (Option.some.inj hs).symm⟩)
      · cases hs
    · cases hs
  | take | decide | plan | write | fault | finish | refresh | refreshFault | settle | replay
  | crash => exact hl.elim

/-! ## The rule of the system -/

section Rule

variable {env : Env} {schema : Schema}

/-- A decision of the schema's tables. -/
def Decision.Of (schema : Schema) : Decision → Prop
  | .records spec _ => spec ∈ schema.tables
  | .keys spec _ => spec ∈ schema.tables

theorem decide_of {tables : String → PhysTable} {op : Op} {d : Decision}
    (h : decideOp env schema tables op = .ok d) : d.Of schema := by
  cases op with
  | insert table rows skip =>
    obtain ⟨spec, rs, hs, -, rfl⟩ := decide_insert h
    exact (schema.table_mem hs).1
  | delete table cond params =>
    obtain ⟨text, spec, ks, -, hs, -, rfl⟩ := decide_delete h
    exact (schema.table_mem hs).1

/-- A property `D` of the database that every program of the system keeps: `Q` says of a decision, `A`
of a list of acts and `S` of a snapshot what keeping `D` relies on, and the last two outlive
appends. -/
structure Stable (env : Env) (schema : Schema) (D : Db → Prop) (Q : Decision → Prop)
    (A : Files → List Act → Prop) (S : Files → Snap → Prop) : Prop where
  init : D Db.init
  exec : ∀ db db' a acts, D db → A db.files (a :: acts) → exec env a db = .ok db' →
    D db' ∧ A db'.files acts
  refresh : ∀ spec db db', D db → Seekbase.exec env (.rebuildFts spec) db = .ok db' → D db'
  decide : ∀ tables op d, decideOp env schema tables op = .ok d → Q d
  plan : ∀ files st d acts, Q d → plan env st d = .ok acts → A files acts
  read : ∀ db spec s, D db → spec ∈ schema.tables → snapshot env spec db.files = .ok s →
    S db.files s
  replay : ∀ files now snaps, snaps.map Snap.spec = schema.tables → (∀ s ∈ snaps, S files s) →
    A files (replayActs env schema now snaps)
  acts_mono : ∀ files more acts, A files acts → files ⊆ more → A more acts
  snap_mono : ∀ files more s, S files s → files ⊆ more → S more s

variable {D : Db → Prop} {Q : Decision → Prop} {A : Files → List Act → Prop}
  {S : Files → Snap → Prop}

/-- What the worker is at. -/
def Worker.Holds (Q : Decision → Prop) (A : Files → List Act → Prop) (files : Files) :
    Worker → Prop
  | .decided d => Q d
  | .acting _ _ todo => A files todo
  | _ => True

/-- What a rebuild has read, and what it is at. -/
def Rebuild.Holds (schema : Schema) (A : Files → List Act → Prop) (S : Files → Snap → Prop)
    (files : Files) : Rebuild → Prop
  | .reading _ todo snaps =>
    snaps.map Snap.spec ++ todo = schema.tables ∧ ∀ s ∈ snaps, S files s
  | .acting _ todo => A files todo
  | _ => True

structure System.Holds (schema : Schema) (D : Db → Prop) (Q : Decision → Prop)
    (A : Files → List Act → Prop) (S : Files → Snap → Prop) (s : System) : Prop where
  db : D s.db
  worker : s.worker.Holds Q A s.db.files
  rebuilds : ∀ r ∈ s.rebuilds, r.Holds schema A S s.db.files

theorem Worker.Holds.mono (hA : Stable env schema D Q A S) {files more : Files} {w : Worker}
    (h : w.Holds Q A files) (hsub : files ⊆ more) : w.Holds Q A more := by
  cases w with
  | acting fts done todo => exact hA.acts_mono _ _ _ h hsub
  | decided d => exact h
  | idle | taken op => trivial

theorem Rebuild.Holds.mono (hA : Stable env schema D Q A S) {files more : Files} {r : Rebuild}
    (h : r.Holds schema A S files) (hsub : files ⊆ more) : r.Holds schema A S more := by
  cases r with
  | reading now todo snaps => exact ⟨h.1, fun s hs => hA.snap_mono _ _ _ (h.2 s hs) hsub⟩
  | acting snaps todo => exact hA.acts_mono _ _ _ h hsub
  | done stats | failed e | stopped => trivial

/-- An act of one party leaves what the others rely on. -/
theorem System.Holds.exec (hA : Stable env schema D Q A S) {s : System} {a : Act} {db : Db}
    (h : s.Holds schema D Q A S) (hdb : D db) (he : Seekbase.exec env a s.db = .ok db) :
    System.Holds schema D Q A S { s with db := db } := by
  have hsub : s.db.files ⊆ db.files := by
    rw [exec_files he]; exact List.subset_append_left _ _
  exact ⟨hdb, h.worker.mono hA hsub, fun r hr => (h.rebuilds r hr).mono hA hsub⟩

theorem System.Holds.setRebuild {s : System} {i : Nat} {r : Rebuild} (h : s.Holds schema D Q A S)
    (hr : r.Holds schema A S s.db.files) : (s.setRebuild i r).Holds schema D Q A S where
  db := h.db
  worker := h.worker
  rebuilds := by
    intro r' hr'
    rcases List.mem_or_eq_of_mem_set hr' with hold | rfl
    · exact h.rebuilds r' hold
    · exact hr

theorem replay_holds (hA : Stable env schema D Q A S) {s t : System} {i : Nat} {r : Rebuild}
    (h : s.Holds schema D Q A S) (hr : r.Holds schema A S s.db.files)
    (hs : Replays env schema s i r t) : t.Holds schema D Q A S := by
  cases hs with
  | start => exact h.setRebuild (hA.replay _ _ _ ((List.append_nil _).symm.trans hr.1) hr.2)
  | act he =>
    obtain ⟨hdb, hacts⟩ := hA.exec _ _ _ _ h.db hr he
    exact (h.exec hA hdb he).setRebuild hacts
  | refuse | finish => exact h.setRebuild trivial

theorem read_holds (hA : Stable env schema D Q A S) {db : Db} (hdb : D db)
    {now : String → Nat → String} {spec : TableSpec} {todo : List TableSpec} {snaps : List Snap}
    (h : (Rebuild.reading now (spec :: todo) snaps).Holds schema A S db.files) :
    (Rebuild.read env db.files now spec todo snaps).Holds schema A S db.files := by
  unfold Rebuild.read
  split
  · rename_i snap hsnap
    have hspec : spec ∈ schema.tables := h.1 ▸ List.mem_append_right _ (by simp)
    obtain ⟨emb, -, heq⟩ := snapshot_ok_iff.mp hsnap
    refine ⟨?_, fun s' hs' => ?_⟩
    · rw [← h.1, List.map_append, List.append_assoc, heq]; rfl
    · rcases List.mem_append.mp hs' with hs' | hs'
      · exact h.2 s' hs'
      · obtain rfl := List.mem_singleton.mp hs'
        exact hA.read _ _ _ hdb hspec hsnap
  · trivial

theorem decide_holds (hA : Stable env schema D Q A S) (files : Files) (db : Db) (op : Op) :
    (Worker.decide env schema db op).Holds Q A files := by
  unfold Worker.decide
  split
  · next d hd => exact hA.decide _ _ _ hd
  · trivial

theorem plan_holds (hA : Stable env schema D Q A S) {files : Files} {d : Decision} (hd : Q d)
    (st : Stamp) : (Worker.plan env st d).Holds Q A files := by
  unfold Worker.plan
  split
  · next acts hacts => exact hA.plan _ _ _ _ hd hacts
  · trivial

theorem background_holds (hA : Stable env schema D Q A S) {s t : System} {l : Label}
    (hl : l.Background) (h : s.Holds schema D Q A S) (hs : step env schema s l = some t) :
    t.Holds schema D Q A S := by
  obtain ⟨now, -, rfl⟩ | ⟨i, now, spec, todo, snaps, -, hi, rfl⟩ | ⟨i, -, rfl⟩ :=
    background_cases hl hs
  · refine ⟨h.db, h.worker, fun r hr => ?_⟩
    rcases List.mem_append.mp hr with hr | hr
    · exact h.rebuilds r hr
    · obtain rfl := List.mem_singleton.mp hr
      exact ⟨rfl, fun _ hs => absurd hs (by simp)⟩
  · exact h.setRebuild (read_holds hA h.db (h.rebuilds _ (List.mem_of_getElem? hi)))
  · exact h.setRebuild trivial

/-- One step, case by case of what it does. -/
theorem holds_step (hA : Stable env schema D Q A S) {s t : System} {l : Label}
    (h : s.Holds schema D Q A S) (hs : step env schema s l = some t) : t.Holds schema D Q A S := by
  have hwork := h.worker
  obtain ⟨i, r, rfl, hi, hr⟩ | hm := step_cases hs
  · exact replay_holds hA h (h.rebuilds r (List.mem_of_getElem? hi)) hr
  · cases hm with
    | take | refuse | fault | finish => exact ⟨h.db, trivial, h.rebuilds⟩
    | decide hw => exact ⟨h.db, decide_holds hA _ _ _, h.rebuilds⟩
    | plan hw =>
      rw [hw] at hwork
      exact ⟨h.db, plan_holds hA hwork _, h.rebuilds⟩
    | write hw he =>
      rw [hw] at hwork
      obtain ⟨hdb, hacts⟩ := hA.exec _ _ _ _ h.db hwork he
      exact ⟨hdb, hacts, (h.exec hA hdb he).rebuilds⟩
    | refresh hw ht he =>
      have hall := h.exec hA (hA.refresh _ _ _ h.db he) he
      exact ⟨hall.db, hall.worker, hall.rebuilds⟩
    | skip | settle => exact ⟨h.db, h.worker, h.rebuilds⟩
    | background hl => exact background_holds hA hl h hs
    | crash => exact ⟨h.db, trivial, fun r hr => absurd hr (by simp)⟩

/-- What every program keeps holds after every run, whatever the order of its steps and wherever it
crashes. -/
theorem holds_run (hA : Stable env schema D Q A S) {labels : List Label} {s : System}
    (hrun : run (step env schema) System.init labels = some s) : s.Holds schema D Q A S := by
  have hinit : System.init.Holds schema D Q A S :=
    ⟨hA.init, trivial, fun r hr => absurd hr (by simp [System.init])⟩
  exact run_invariant (fun _ _ _ => holds_step hA) hinit hrun

end Rule

end Seekbase
