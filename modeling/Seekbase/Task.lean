/-
# Seekbase.Task — background tasks: the driver, its lines on the bridge thread, and cancellation.

A task is a record whose states are appended to a log; the LAST line of an id is its status.  The
driver of a task runs on the event loop and its lines are written by the bridge thread, one job after
another in FIFO order.  Cancelling an await drops its job while the job is still queued and leaves it
to complete, unheard, once it has started; so a cancellation, the bridge and the driver race.

* `Job`, `Phase`, `Driver` — what is on the bridge, what the driver awaits, where it is;
* `step`                   — one step of the driver, of the bridge thread, or of a caller;
* `Runner.lines`           — the log and the lines still in flight, in the order they will have;
* `Runner.Queued`          — at most one job of the driver is in flight, and where it is.

The model is one task's: what the bridge does for anybody else is `Job.other`.
-/
import Seekbase.Lib.Run
import Seekbase.Struct

namespace Seekbase

open JsonText Transition

/-! ## Records -/

inductive TaskState where
  | pending
  | running
  | done
  | failed
  | cancelled
  deriving DecidableEq

/-- `wait` polls until the state is neither `pending` nor `running`. -/
def TaskState.settled : TaskState → Bool
  | .pending | .running => false
  | _ => true

structure Task where
  id : String
  op : String
  state : TaskState
  error : Option String
  matched : Option Nat
  stats : Option Json
  query : Option String
  rows : Option Nat
  submittedAt : Option String
  finishedAt : Option String

/-- What an await of the driver may raise besides a cancellation. -/
inductive Failure where
  | timeout
  | error (type message : String)

inductive Raised where
  | cancelled
  | failure (f : Failure)

/-- `rows = result["rows"] if isinstance(result, dict) else result`. -/
def rowsOf : Json → List Json
  | .arr xs => xs
  | .obj ms =>
    match lookup "rows" ms with
    | some (.arr xs) => xs
    | _ => []
  | _ => []

/-- A spawned task: the record it was born with (`pending` from `submit`, `running` from `adopt`) and
the text of its maximal runtime in seconds. -/
structure Spawn where
  task : Task
  timeout : String
  born : task.state = .pending ∨ task.state = .running

namespace Spawn

variable (c : Spawn)

/-- The record the driver carries: `submit`'s is `running` from its first step on. -/
def current : Task := { c.task with state := .running }

/-- The line of the `except` branch that takes what was raised. -/
def settle (now : String) : Raised → Task
  | .cancelled => { c.current with state := .cancelled, finishedAt := some now }
  | .failure .timeout =>
    { c.current with
      state := .failed
      finishedAt := some now
      error := some ("exceeded max task runtime (" ++ c.timeout ++ "s)") }
  | .failure (.error type message) =>
    { c.current with
      state := .failed
      error := some (String.ofList ((type ++ ": " ++ message).toList.take 500))
      finishedAt := some now }

/-- The `done` line of a query, with the number of its rows. -/
def doneRows (now : String) (rows : List Json) : Task :=
  { c.current with state := .done, rows := some rows.length, finishedAt := some now }

/-- The `done` line of any other task, with its stats. -/
def doneStats (now : String) (stats : Json) : Task :=
  { c.current with state := .done, stats := some stats, finishedAt := some now }

end Spawn

/-! ## The bridge and the driver -/

inductive Job where
  /-- A line of the task's log. -/
  | line (t : Task)
  /-- The result file of a query. -/
  | persist (rows : List Json)
  /-- The read of the log that a caller of `cancel` ends with. -/
  | status (caller : Nat)
  | other

/-- The driver's own jobs. -/
def Job.own : Job → Bool
  | .line _ | .persist _ => true
  | _ => false

def Job.line? : Job → Option Task
  | .line t => some t
  | _ => none

/-- What the driver awaits from the bridge. -/
inductive Phase where
  | logging (t : Task)
  | persisting (rows : List Json)
  | finishing (t : Task)
  | handling (t : Task)

def Phase.job : Phase → Job
  | .logging t | .finishing t | .handling t => .line t
  | .persisting rows => .persist rows

inductive Driver where
  /-- Created; its first step has not run. -/
  | unstarted
  /-- In `wait_for`. -/
  | working
  /-- In an await of the bridge, with the outcome of the job once it has one. -/
  | awaiting (p : Phase) (outcome : Option (Except Failure Unit))
  | ended (raised : Option Raised)

/-- The driver hears of a job that has ended if it is its own and still awaited. -/
def Driver.hear (d : Driver) (j : Job) (awaited : Bool) (o : Except Failure Unit) : Driver :=
  match d with
  | .awaiting p none => if awaited && j.own then .awaiting p (some o) else d
  | _ => d

/-- A call of `cancel`. -/
inductive Caller where
  | waiting
  | reading
  | returned (found : Option Task)
  | raised (f : Failure)

structure Runner where
  log : List Task
  queue : List Job
  /-- The job on the bridge thread, and whether it is still awaited. -/
  running : Option (Job × Bool)
  driver : Driver
  cancelRequested : Bool
  callers : List Caller

/-- `submit` or `adopt` has returned: the birth line is logged and the driver created. -/
def Runner.init (c : Spawn) : Runner := ⟨[c.task], [], none, .unstarted, false, []⟩

namespace Runner

def post (s : Runner) (j : Job) : Runner := { s with queue := s.queue ++ [j] }

/-- The driver posts a job and awaits it. -/
def await (s : Runner) (p : Phase) : Runner := { s.post p.job with driver := .awaiting p none }

/-- The `except` branches. -/
def handle (s : Runner) (c : Spawn) (now : String) (e : Raised) : Runner :=
  s.await (.handling (c.settle now e))

/-- The await of the driver's job is cancelled: a queued job is dropped, a running one goes on. -/
def abandon (s : Runner) : Runner :=
  { s with
    queue := s.queue.filter fun j => !j.own
    running := s.running.map fun r => (r.1, r.2 && !r.1.own) }

/-- The job on the bridge thread has ended. -/
def hear (s : Runner) (j : Job) (awaited : Bool) (o : Except Failure Unit) : Runner :=
  { s with running := none, driver := s.driver.hear j awaited o }

end Runner

inductive TaskLabel where
  | enter
  | throw (now : String)
  | work (now : String) (o : Except Raised Json)
  | resume (now : String)
  | begin
  | finish
  | fail (f : Failure)
  | other
  | cancel
  | joined (i : Nat)
  | close

/-- The end of an await of the bridge, by the phase it belongs to. -/
def Runner.resume (s : Runner) (c : Spawn) (now : String) : Phase → Except Failure Unit → Runner
  | .logging _, .ok () => { s with driver := .working }
  | .persisting rows, .ok () => s.await (.finishing (c.doneRows now rows))
  | .finishing _, .ok () | .handling _, .ok () => { s with driver := .ended none }
  | .handling _, .error f => { s with driver := .ended (some (.failure f)) }
  | _, .error f => s.handle c now (.failure f)

/-- The end of `wait_for`. -/
def Runner.work (s : Runner) (c : Spawn) (now : String) : Except Raised Json → Runner
  | .ok result =>
    if c.task.op = "query" then s.await (.persisting (rowsOf result))
    else s.await (.finishing (c.doneStats now result))
  | .error e => s.handle c now e

/-- `CancelledError` at the driver's current await. -/
def Runner.throw (s : Runner) (c : Spawn) (now : String) : Option Runner :=
  match s.driver with
  | .unstarted => some { s with driver := .ended (some .cancelled) }
  | .working => some (s.handle c now .cancelled)
  | .awaiting (.handling _) _ => some { s.abandon with driver := .ended (some .cancelled) }
  | .awaiting _ _ => some (s.abandon.handle c now .cancelled)
  | .ended _ => none

def taskStep (c : Spawn) (s : Runner) : TaskLabel → Option Runner
  | .enter =>
    match s.driver, s.cancelRequested with
    | .unstarted, false =>
      if c.task.state = .running then some { s with driver := .working }
      else some (s.await (.logging c.current))
    | _, _ => none
  | .throw now =>
    if s.cancelRequested then { s with cancelRequested := false }.throw c now else none
  -- the work may also catch a cancellation and end in its own way
  | .work now o =>
    match s.driver with
    | .working => some ({ s with cancelRequested := false }.work c now o)
    | _ => none
  | .resume now =>
    match s.driver, s.cancelRequested with
    | .awaiting p (some o), false => some (s.resume c now p o)
    | _, _ => none
  | .begin =>
    match s.running, s.queue with
    | none, j :: queue => some { s with running := some (j, true), queue := queue }
    | _, _ => none
  | .finish =>
    match s.running with
    | some (j, awaited) =>
      let s := s.hear j awaited (.ok ())
      match j with
      | .line t => some { s with log := s.log ++ [t] }
      | .status i => some { s with callers := s.callers.set i (.returned s.log.getLast?) }
      | _ => some s
    | none => none
  | .fail f =>
    match s.running with
    | some (j, awaited) =>
      if j.own then some (s.hear j awaited (.error f)) else none
    | none => none
  | .other => some (s.post .other)
  | .cancel =>
    match s.driver with
    | .ended _ =>
      some { s.post (.status s.callers.length) with callers := s.callers ++ [.reading] }
    | _ => some { s with cancelRequested := true, callers := s.callers ++ [.waiting] }
  -- `await wrapper`: a cancellation is suppressed, anything else is raised to the caller
  | .joined i =>
    match s.callers[i]?, s.driver with
    | some .waiting, .ended (some (.failure f)) =>
      some { s with callers := s.callers.set i (.raised f) }
    | some .waiting, .ended _ =>
      some { s.post (.status i) with callers := s.callers.set i .reading }
    | _, _ => none
  | .close =>
    match s.driver with
    | .ended _ => some s
    | _ => some { s with cancelRequested := true }

/-! ## What a step does -/

/-- What a step does, with what it takes to be enabled. -/
inductive TaskMoves (c : Spawn) (s : Runner) : TaskLabel → Runner → Prop
  | adopted (hd : s.driver = .unstarted) (hr : c.task.state = .running) :
    TaskMoves c s .enter { s with driver := .working }
  | logging (hd : s.driver = .unstarted) (hr : c.task.state ≠ .running) :
    TaskMoves c s .enter (s.await (.logging c.current))
  | dropped {now : String} (hd : s.driver = .unstarted) :
    TaskMoves c s (.throw now)
      { s with cancelRequested := false, driver := .ended (some .cancelled) }
  | stopped {now : String} (hd : s.driver = .working) :
    TaskMoves c s (.throw now) ({ s with cancelRequested := false }.handle c now .cancelled)
  | silenced {now : String} {t : Task} {o : Option (Except Failure Unit)}
    (hd : s.driver = .awaiting (.handling t) o) :
    TaskMoves c s (.throw now)
      { ({ s with cancelRequested := false } : Runner).abandon with
        driver := .ended (some .cancelled) }
  | interrupted {now : String} {p : Phase} {o : Option (Except Failure Unit)}
    (hd : s.driver = .awaiting p o) (hp : ∀ t, p ≠ .handling t) :
    TaskMoves c s (.throw now) ({ s with cancelRequested := false }.abandon.handle c now .cancelled)
  | rows {now : String} {r : Json} (hd : s.driver = .working) (hq : c.task.op = "query") :
    TaskMoves c s (.work now (.ok r))
      ({ s with cancelRequested := false }.await (.persisting (rowsOf r)))
  | stats {now : String} {r : Json} (hd : s.driver = .working) (hq : c.task.op ≠ "query") :
    TaskMoves c s (.work now (.ok r))
      ({ s with cancelRequested := false }.await (.finishing (c.doneStats now r)))
  | raised {now : String} {e : Raised} (hd : s.driver = .working) :
    TaskMoves c s (.work now (.error e)) ({ s with cancelRequested := false }.handle c now e)
  | logged {now : String} {t : Task} (hd : s.driver = .awaiting (.logging t) (some (.ok ()))) :
    TaskMoves c s (.resume now) { s with driver := .working }
  | stored {now : String} {rows : List Json}
    (hd : s.driver = .awaiting (.persisting rows) (some (.ok ()))) :
    TaskMoves c s (.resume now) (s.await (.finishing (c.doneRows now rows)))
  | finished {now : String} {t : Task} (hd : s.driver = .awaiting (.finishing t) (some (.ok ()))) :
    TaskMoves c s (.resume now) { s with driver := .ended none }
  | settled {now : String} {t : Task} {o : Except Failure Unit} {e : Option Raised}
    (hd : s.driver = .awaiting (.handling t) (some o)) :
    TaskMoves c s (.resume now) { s with driver := .ended e }
  | handled {now : String} {p : Phase} {f : Failure}
    (hd : s.driver = .awaiting p (some (.error f))) (hp : ∀ t, p ≠ .handling t) :
    TaskMoves c s (.resume now) (s.handle c now (.failure f))
  | begin {j : Job} {queue : List Job} (hr : s.running = none) (hq : s.queue = j :: queue) :
    TaskMoves c s .begin { s with running := some (j, true), queue := queue }
  | wrote {t : Task} {awaited : Bool} (hr : s.running = some (.line t, awaited)) :
    TaskMoves c s .finish { s.hear (.line t) awaited (.ok ()) with log := s.log ++ [t] }
  | read {i : Nat} {awaited : Bool} (hr : s.running = some (.status i, awaited)) :
    TaskMoves c s .finish { s.hear (.status i) awaited (.ok ()) with
      callers := s.callers.set i (.returned s.log.getLast?) }
  | ran {j : Job} {awaited : Bool} (hr : s.running = some (j, awaited)) (hj : j.line? = none) :
    TaskMoves c s .finish (s.hear j awaited (.ok ()))
  | failed {f : Failure} {j : Job} {awaited : Bool} (hr : s.running = some (j, awaited))
    (hj : j.own = true) : TaskMoves c s (.fail f) (s.hear j awaited (.error f))
  | other : TaskMoves c s .other (s.post .other)
  | late {e : Option Raised} (hd : s.driver = .ended e) :
    TaskMoves c s .cancel
      { s.post (.status s.callers.length) with callers := s.callers ++ [.reading] }
  | asked : TaskMoves c s .cancel
      { s with cancelRequested := true, callers := s.callers ++ [.waiting] }
  | rejected {i : Nat} {f : Failure} :
    TaskMoves c s (.joined i) { s with callers := s.callers.set i (.raised f) }
  | joined {i : Nat} {e : Option Raised} (hd : s.driver = .ended e) :
    TaskMoves c s (.joined i) { s.post (.status i) with callers := s.callers.set i .reading }
  | closed : TaskMoves c s .close s
  | close : TaskMoves c s .close { s with cancelRequested := true }

theorem throw_moves {c : Spawn} {s t : Runner} {now : String}
    (hstep : { s with cancelRequested := false }.throw c now = some t) :
    TaskMoves c s (.throw now) t := by
  unfold Runner.throw at hstep
  split at hstep
  · next hd => exact Option.some.inj hstep ▸ .dropped hd
  · next hd => exact Option.some.inj hstep ▸ .stopped hd
  · next u o hd => exact Option.some.inj hstep ▸ .silenced hd
  · next p o hp hd => exact Option.some.inj hstep ▸ .interrupted hd fun u hu => hp u hu
  · cases hstep

theorem work_moves {c : Spawn} {s : Runner} (now : String) (o : Except Raised Json)
    (hd : s.driver = .working) :
    TaskMoves c s (.work now o) ({ s with cancelRequested := false }.work c now o) := by
  cases o with
  | ok r =>
    by_cases hq : c.task.op = "query"
    · simp only [Runner.work, if_pos hq]
      exact .rows hd hq
    · simp only [Runner.work, if_neg hq]
      exact .stats hd hq
  | error e => exact .raised hd

theorem resume_moves {c : Spawn} {s : Runner} (now : String) {p : Phase} {o : Except Failure Unit}
    (hd : s.driver = .awaiting p (some o)) : TaskMoves c s (.resume now) (s.resume c now p o) := by
  cases o with
  | ok =>
    cases p with
    | logging u => exact .logged hd
    | persisting rows => exact .stored hd
    | finishing u => exact .finished hd
    | handling u => exact .settled hd
  | error f =>
    cases p with
    | handling u => exact .settled hd
    | logging u | persisting rows | finishing u => exact .handled hd (by simp)

theorem finish_moves {c : Spawn} {s t : Runner} (hstep : taskStep c s .finish = some t) :
    TaskMoves c s .finish t := by
  simp only [taskStep] at hstep
  split at hstep
  · next j awaited hr =>
    cases j with
    | line u => exact Option.some.inj hstep ▸ .wrote hr
    | status i => exact Option.some.inj hstep ▸ .read hr
    | persist rows | other => exact Option.some.inj hstep ▸ .ran hr rfl
  · cases hstep

theorem taskStep_moves {c : Spawn} {s t : Runner} {l : TaskLabel}
    (hstep : taskStep c s l = some t) : TaskMoves c s l t := by
  cases l with
  | enter =>
    simp only [taskStep] at hstep
    split at hstep
    · next hd _ =>
      split at hstep
      · next hr => exact Option.some.inj hstep ▸ .adopted hd hr
      · next hr => exact Option.some.inj hstep ▸ .logging hd hr
    · cases hstep
  | throw now =>
    simp only [taskStep] at hstep
    split at hstep
    · exact throw_moves hstep
    · cases hstep
  | work now o =>
    simp only [taskStep] at hstep
    split at hstep
    · next hd => exact Option.some.inj hstep ▸ work_moves now o hd
    · cases hstep
  | resume now =>
    simp only [taskStep] at hstep
    split at hstep
    · next hd _ => exact Option.some.inj hstep ▸ resume_moves now hd
    · cases hstep
  | begin =>
    simp only [taskStep] at hstep
    split at hstep
    · next hr hq => exact Option.some.inj hstep ▸ .begin hr hq
    · cases hstep
  | finish => exact finish_moves hstep
  | fail f =>
    simp only [taskStep] at hstep
    split at hstep
    · next hr =>
      split at hstep
      · next hj => exact Option.some.inj hstep ▸ .failed hr hj
      · cases hstep
    · cases hstep
  | other => exact Option.some.inj hstep ▸ .other
  | cancel =>
    simp only [taskStep] at hstep
    split at hstep
    · next hd => exact Option.some.inj hstep ▸ .late hd
    · exact Option.some.inj hstep ▸ .asked
  | joined i =>
    simp only [taskStep] at hstep
    split at hstep
    · exact Option.some.inj hstep ▸ .rejected
    · next hd => exact Option.some.inj hstep ▸ .joined hd
    · cases hstep
  | close =>
    simp only [taskStep] at hstep
    split at hstep
    · exact Option.some.inj hstep ▸ .closed
    · exact Option.some.inj hstep ▸ .close

/-! ## Lines in flight -/

namespace Runner

def linesOf (js : List Job) : List Task := js.filterMap Job.line?

/-- The lines that are logged, or certainly will be unless their write fails: the one on the bridge
thread comes first. -/
def written (s : Runner) : List Task := s.log ++ linesOf (s.running.toList.map Prod.fst)

/-- The log as it will be when the bridge has done all that is posted. -/
def lines (s : Runner) : List Task := s.written ++ linesOf s.queue

def ownJobs (js : List Job) : List Job := js.filter Job.own

/-- The driver has no job in flight that it awaits. -/
structure Idle (s : Runner) : Prop where
  queue : ownJobs s.queue = []
  running : ∀ j, s.running = some (j, true) → j.own = false

/-- The driver's awaited job is queued or on the bridge thread. -/
def InFlight (s : Runner) (p : Phase) : Prop :=
  (ownJobs s.queue = [p.job] ∧ ∀ j, s.running = some (j, true) → j.own = false)
    ∨ ownJobs s.queue = [] ∧ s.running = some (p.job, true)

/-- A job that goes on unheard belongs to a driver that handles its cancellation, or has ended. -/
def Orphan (s : Runner) : Prop :=
  (∃ t, s.driver = .awaiting (.handling t) none ∧ ownJobs s.queue = [.line t])
    ∨ ∃ e, s.driver = .ended e

/-- At most one job of the driver is in flight, and where it is. -/
structure Queued (s : Runner) : Prop where
  idle : (∀ p, s.driver ≠ .awaiting p none) → s.Idle
  inFlight : ∀ p, s.driver = .awaiting p none → s.InFlight p
  orphan : ∀ j, s.running = some (j, false) → j.own = true → s.Orphan
  heard : ∀ j, s.running = some (j, false) → j.own = true

/-! ## The pieces of a step -/

theorem ownJobs_append (a b : List Job) : ownJobs (a ++ b) = ownJobs a ++ ownJobs b := by
  simp [ownJobs]

theorem linesOf_append (a b : List Job) : linesOf (a ++ b) = linesOf a ++ linesOf b := by
  simp [linesOf]

theorem ownJobs_foreign (js : List Job) : ownJobs (js.filter fun j => !j.own) = [] := by
  simp only [ownJobs, List.filter_filter, Bool.and_not_self, List.filter_false]

theorem line?_of_foreign {j : Job} (h : j.own = false) : j.line? = none := by
  cases j with
  | line t | persist rows => exact absurd h (by simp [Job.own])
  | status i | other => rfl

theorem linesOf_of_ownJobs (js : List Job) : linesOf js = linesOf (ownJobs js) := by
  induction js with
  | nil => rfl
  | cons j js ih =>
    by_cases hj : j.own = true
    · simp only [linesOf, ownJobs, List.filter_cons_of_pos hj, List.filterMap_cons] at ih ⊢
      rw [ih]
    · have hnone : j.line? = none := line?_of_foreign (by simpa using hj)
      simp only [linesOf, ownJobs, List.filter_cons_of_neg hj, List.filterMap_cons, hnone] at ih ⊢
      exact ih

theorem linesOf_nil {js : List Job} (h : ownJobs js = []) : linesOf js = [] := by
  rw [linesOf_of_ownJobs, h]; rfl

theorem own_job (p : Phase) : p.job.own = true := by
  cases p <;> rfl

@[simp] theorem abandon_queue (s : Runner) : ownJobs s.abandon.queue = [] := ownJobs_foreign s.queue

@[simp] theorem abandon_log (s : Runner) : s.abandon.log = s.log := rfl

theorem abandon_written (s : Runner) : s.abandon.written = s.written := by
  unfold written abandon
  cases s.running <;> rfl

theorem abandon_lines (s : Runner) : s.abandon.lines = s.written := by
  rw [lines, abandon_written, linesOf_nil (abandon_queue s), List.append_nil]

theorem await_lines (s : Runner) (p : Phase) :
    (s.await p).lines = s.lines ++ p.job.line?.toList := by
  show s.written ++ linesOf (s.queue ++ [p.job]) = _
  rw [linesOf_append, ← List.append_assoc]
  cases p <;> rfl

theorem Queued.noOrphan {s : Runner} (h : s.Queued) (ho : ¬ s.Orphan) (j : Job) :
    s.running ≠ some (j, false) := fun hr => ho (h.orphan j hr (h.heard j hr))

/-- The driver posts a job and awaits it: an orphan is left only by a handled cancellation. -/
theorem Queued.await {s : Runner} (hidle : s.Idle) {p : Phase}
    (horphan : ∀ j, s.running = some (j, false) → j.own = true ∧ ∃ t, p = .handling t) :
    (s.await p).Queued where
  idle h := absurd rfl (h p)
  inFlight := by
    intro q hq
    obtain rfl : p = q := by simpa [Runner.await] using hq
    refine Or.inl ⟨?_, hidle.running⟩
    show ownJobs (s.queue ++ [p.job]) = _
    rw [ownJobs_append, hidle.queue, ownJobs, List.filter_cons_of_pos (own_job p)]
    rfl
  orphan := by
    intro j hr _
    rcases (horphan j hr).2 with ⟨t, rfl⟩
    refine Or.inl ⟨t, rfl, ?_⟩
    show ownJobs (s.queue ++ [.line t]) = _
    rw [ownJobs_append, hidle.queue]
    rfl
  heard j hr := (horphan j hr).1

/-- The driver goes on, or ends, with nothing of its own in flight that it awaits. -/
theorem Queued.stay {s : Runner} (hidle : s.Idle) {d : Driver} (hd : ∀ p, d ≠ .awaiting p none)
    (horphan : ∀ j, s.running = some (j, false) → j.own = true ∧ ∃ e, d = .ended e) :
    Queued { s with driver := d } where
  idle _ := ⟨hidle.queue, hidle.running⟩
  inFlight p hp := absurd hp (hd p)
  orphan := by
    intro j hr _
    rcases (horphan j hr).2 with ⟨e, rfl⟩
    exact Or.inr ⟨e, rfl⟩
  heard j hr := (horphan j hr).1

theorem Queued.abandon {s : Runner} (h : s.Queued) :
    s.abandon.Idle ∧ ∀ j, s.abandon.running = some (j, false) → j.own = true := by
  constructor
  · refine ⟨abandon_queue s, fun j hr => ?_⟩
    rcases Option.map_eq_some_iff.mp hr with ⟨⟨j', b⟩, -, heq⟩
    rcases Prod.mk.inj heq with ⟨rfl, hb⟩
    simpa using (Bool.and_eq_true_iff.mp hb).2
  · intro j hr
    rcases Option.map_eq_some_iff.mp hr with ⟨⟨j', b⟩, hrun, heq⟩
    rcases Prod.mk.inj heq with ⟨rfl, hb⟩
    match b with
    | false => exact h.heard j' hrun
    | true => simpa using hb

/-- Nothing of the driver's is in flight while it computes. -/
theorem Queued.computing {s : Runner} (h : s.Queued) (hd : ∀ p, s.driver ≠ .awaiting p none)
    (he : ∀ e, s.driver ≠ .ended e) : s.Idle ∧ ∀ j, s.running ≠ some (j, false) := by
  refine ⟨h.idle hd, h.noOrphan ?_⟩
  rintro (⟨t, ht, -⟩ | ⟨e, hde⟩)
  · exact hd _ ht
  · exact he e hde

/-- A job of somebody else is posted. -/
theorem Queued.post {s : Runner} (h : s.Queued) {j : Job} (hj : j.own = false) :
    (s.post j).Queued := by
  have hown : ownJobs (s.queue ++ [j]) = ownJobs s.queue := by
    have hone : ownJobs [j] = [] := by simp [ownJobs, hj]
    rw [ownJobs_append, hone, List.append_nil]
  refine ⟨fun hd => ⟨?_, (h.idle hd).running⟩, fun p hp => ?_, fun j' hr hj' => ?_, h.heard⟩
  · exact hown.trans (h.idle hd).queue
  · rcases h.inFlight p hp with ⟨hq, hr⟩ | ⟨hq, hr⟩
    · exact Or.inl ⟨hown.trans hq, hr⟩
    · exact Or.inr ⟨hown.trans hq, hr⟩
  · rcases h.orphan j' hr hj' with ⟨t, ht, hq⟩ | he
    · exact Or.inl ⟨t, ht, hown.trans hq⟩
    · exact Or.inr he

theorem Queued.begin {s : Runner} (h : s.Queued) (hr : s.running = none) {j : Job}
    {queue : List Job} (hq : s.queue = j :: queue) :
    Queued { s with running := some (j, true), queue := queue } := by
  refine ⟨fun hd => ?_, fun p hp => ?_, ?_, ?_⟩
  · have hnil := (h.idle hd).queue
    rw [hq] at hnil
    by_cases hj : j.own = true
    · rw [ownJobs, List.filter_cons_of_pos hj] at hnil
      exact absurd hnil (by simp)
    · rw [ownJobs, List.filter_cons_of_neg hj] at hnil
      refine ⟨hnil, fun j' hr' => ?_⟩
      rcases Prod.mk.inj (Option.some.inj hr') with ⟨rfl, -⟩
      simpa using hj
  · rcases h.inFlight p hp with ⟨hown, -⟩ | ⟨-, hrun⟩
    · rw [hq] at hown
      by_cases hj : j.own = true
      · rw [ownJobs, List.filter_cons_of_pos hj] at hown
        rcases List.cons.inj hown with ⟨rfl, hrest⟩
        exact Or.inr ⟨hrest, rfl⟩
      · rw [ownJobs, List.filter_cons_of_neg hj] at hown
        refine Or.inl ⟨hown, fun j' hr' => ?_⟩
        rcases Prod.mk.inj (Option.some.inj hr') with ⟨rfl, -⟩
        simpa using hj
    · rw [hr] at hrun
      exact absurd hrun (by simp)
  · intro j' hr'
    exact absurd (Prod.mk.inj (Option.some.inj hr')).2 (by simp)
  · intro j' hr'
    exact absurd (Prod.mk.inj (Option.some.inj hr')).2 (by simp)

/-- The job on the bridge thread has ended and the driver has heard of it. -/
theorem Queued.hear {s : Runner} (h : s.Queued) {j : Job} {awaited : Bool}
    (hr : s.running = some (j, awaited)) (o : Except Failure Unit) :
    (s.hear j awaited o).Queued := by
  have hnone : ∀ (j' : Job) (b : Bool), (none : Option (Job × Bool)) ≠ some (j', b) := by simp
  by_cases hd : ∃ p, s.driver = .awaiting p none
  · rcases hd with ⟨p, hp⟩
    rcases h.inFlight p hp with ⟨hq, hrun⟩ | ⟨hq, hrun⟩
    · -- somebody else's job: the driver's is still queued
      have hno : ¬ (awaited && j.own) = true := by
        intro hb
        rcases Bool.and_eq_true_iff.mp hb with ⟨rfl, hown⟩
        rw [hrun j hr] at hown
        exact absurd hown (by simp)
      have hsame : s.driver.hear j awaited o = .awaiting p none := by
        rw [hp, Driver.hear, if_neg hno]
      refine ⟨fun hne => absurd hsame (hne p), fun p' hp' => Or.inl ⟨?_, fun _ hn => ?_⟩,
        fun _ hn => absurd hn (hnone _ _), fun _ hn => absurd hn (hnone _ _)⟩
      · have hpp : Driver.awaiting p none = .awaiting p' none := hsame.symm.trans hp'
        rw [← (Driver.awaiting.inj hpp).1]
        exact hq
      · exact absurd hn (hnone _ _)
    · rcases Prod.mk.inj (Option.some.inj (hr.symm.trans hrun)) with ⟨rfl, rfl⟩
      have hheard : s.driver.hear p.job true o = .awaiting p (some o) := by
        rw [hp, Driver.hear, if_pos (by rw [own_job]; rfl)]
      refine ⟨fun _ => ⟨hq, fun _ hn => absurd hn (hnone _ _)⟩, fun p' hp' => ?_,
        fun _ hn => absurd hn (hnone _ _), fun _ hn => absurd hn (hnone _ _)⟩
      have hpp : Driver.awaiting p (some o) = .awaiting p' none := hheard.symm.trans hp'
      exact absurd (Driver.awaiting.inj hpp).2 (by simp)
  · have hidle := h.idle fun p hp => hd ⟨p, hp⟩
    have hsame : s.driver.hear j awaited o = s.driver := by
      unfold Driver.hear
      split
      · next p hp => exact absurd ⟨p, hp⟩ hd
      · rfl
    exact ⟨fun _ => ⟨hidle.queue, fun _ hn => absurd hn (hnone _ _)⟩,
      fun p hp => absurd ⟨p, hsame.symm.trans hp⟩ hd,
      fun _ hn => absurd hn (hnone _ _), fun _ hn => absurd hn (hnone _ _)⟩

/-! ## One step -/

theorem Queued.congr {s t : Runner} (h : s.Queued) (hq : t.queue = s.queue)
    (hr : t.running = s.running) (hd : t.driver = s.driver) : t.Queued := by
  rcases h with ⟨hidle, hin, horphan, hheard⟩
  refine ⟨fun hne => ?_, fun p hp => ?_, fun j hj ho => ?_, fun j hj => ?_⟩
  · have hi := hidle (hd ▸ hne)
    exact ⟨hq ▸ hi.queue, hr ▸ hi.running⟩
  · have hf := hin p (hd ▸ hp)
    unfold InFlight at hf ⊢
    rw [hq, hr]
    exact hf
  · have ho' := horphan j (hr ▸ hj) ho
    unfold Orphan at ho' ⊢
    rw [hq, hd]
    exact ho'
  · exact hheard j (hr ▸ hj)

/-- The driver goes on from where it computes: it has nothing in flight, and leaves no orphan. -/
theorem Queued.goOn {s : Runner} (h : s.Queued) (hd : ∀ p, s.driver ≠ .awaiting p none)
    (he : ∀ e, s.driver ≠ .ended e) {d : Driver} (hnone : ∀ p, d ≠ .awaiting p none) (b : Bool) :
    Queued { s with driver := d, cancelRequested := b } := by
  rcases h.computing hd he with ⟨hidle, hno⟩
  have hstay : Queued { s with driver := d } := Queued.stay hidle hnone fun j hj => absurd hj (hno j)
  exact hstay.congr rfl rfl rfl

theorem Queued.posts {s : Runner} (h : s.Queued) (hd : ∀ p, s.driver ≠ .awaiting p none)
    (he : ∀ e, s.driver ≠ .ended e) (p : Phase) (b : Bool) :
    ({ s with cancelRequested := b }.await p).Queued := by
  rcases h.computing hd he with ⟨hidle, hno⟩
  have hawait : (s.await p).Queued := Queued.await hidle fun j hj => absurd hj (hno j)
  exact hawait.congr rfl rfl rfl

end Runner

open Runner

theorem init_queued (c : Spawn) : (Runner.init c).Queued where
  idle _ := ⟨rfl, by simp [Runner.init]⟩
  inFlight := by simp [Runner.init]
  orphan := by simp [Runner.init]
  heard := by simp [Runner.init]

theorem step_queued (c : Spawn) (s : Runner) (l : TaskLabel) (t : Runner) (h : s.Queued)
    (hstep : taskStep c s l = some t) : t.Queued := by
  have hcalm : Queued { s with cancelRequested := false } := h.congr rfl rfl rfl
  cases taskStep_moves hstep with
  | adopted hd | dropped hd | logged hd | finished hd | settled hd =>
    exact h.goOn (by simp [hd]) (by simp [hd]) (by simp) _
  | logging hd | stopped hd | rows hd | stats hd | raised hd | stored hd | handled hd =>
    exact h.posts (by simp [hd]) (by simp [hd]) _ _
  | silenced hd =>
    exact Queued.stay hcalm.abandon.1 (by simp) fun j hj => ⟨hcalm.abandon.2 j hj, _, rfl⟩
  | interrupted hd =>
    exact Queued.await hcalm.abandon.1 fun j hj => ⟨hcalm.abandon.2 j hj, _, rfl⟩
  | begin hr hq => exact h.begin hr hq
  | wrote hr | read hr => exact (h.hear hr (.ok ())).congr rfl rfl rfl
  | ran hr => exact h.hear hr (.ok ())
  | failed hr => exact h.hear hr (.error _)
  | other => exact h.post rfl
  | late => exact (h.post (j := .status s.callers.length) rfl).congr rfl rfl rfl
  | @joined i => exact (h.post (j := .status i) rfl).congr rfl rfl rfl
  | asked | rejected | closed | close => exact h.congr rfl rfl rfl

end Seekbase
