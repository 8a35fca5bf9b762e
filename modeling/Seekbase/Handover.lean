/-
# Seekbase.Handover — a query over HTTP that outlives its wait becomes a task.

The handler starts the query as a future and waits for it, but not for long.  If it has ended by then,
its outcome is the reply and nothing was recorded; otherwise a record is born, a driver takes the SAME
future over, and the client is told of the task.  The future may end at any point of this: while the
handler waits, between the timeout and the handler's next step, while the record is appended, or later.
The rows of an adopted query go to its result file, in the directory that other tasks and retention have.

* `Handover`, `handStep` — the handler, the future, the directory, and the driver once there is one;
* `Ending`               — what the end of a record may say of the future;
* `Course`               — where the driver of an adopted future is, and what its lines are;
* `Filed`                — a `done` line has its file, whatever the future may still come to;
* `hand_bounded`         — a measure: nobody goes on for ever;
* `escalation_hands_over` — one outcome, delivered once, ∀ orders.

`as_task` does not wait: it goes to `submit`, and the life of that task is `Cancel`'s and `Results`'.
-/
import Seekbase.Results

namespace Seekbase

open JsonText Transition Runner

/-! ## The handler -/

/-- `fut = asyncio.ensure_future(run())`. -/
inductive Fut where
  | scheduled
  | running
  | over (o : Except Failure Json)

inductive HttpReply where
  /-- `200, fut.result()`. -/
  | rows (result : Json)
  /-- What is raised through to the error mapper. -/
  | raised (f : Failure)
  /-- `202, task.to_wire()`. -/
  | task (t : Task)

/-- Where the handler is. -/
inductive Handler where
  /-- In `asyncio.wait`. -/
  | waiting
  /-- In `adopt`, until its line is written. -/
  | appending
  | appended
  | replied (r : HttpReply)

structure Handover where
  fut : Fut
  /-- How often the query was started. -/
  starts : Nat
  timedOut : Bool
  handler : Handler
  /-- The driver, and its record. -/
  runner : Option Runner
  /-- The files of `tasks/results`. -/
  dir : ResultDir

/-- The handler up to its wait; `wait` is what `float(body.get("wait_ms", 5000))` comes to.  The query is
scheduled before that is computed. -/
def Handover.init (d : ResultDir) : Except Failure Unit → Handover
  | .ok () => ⟨.scheduled, 0, false, .waiting, none, d⟩
  | .error f => ⟨.scheduled, 0, false, .replied (.raised f), none, d⟩

/-- The lines of the record. -/
def Handover.log (c : Spawn) (s : Handover) : List Task :=
  match s.handler, s.runner with
  | .appended, _ => [c.task]
  | _, some r => r.log
  | _, none => []

inductive HandLabel where
  /-- The query takes its first step, and ends. -/
  | start
  | complete (o : Except Failure Json)
  | timeout
  /-- The handler goes on after its wait. -/
  | wake
  /-- The line of the record is written, or fails. -/
  | append
  | appendFails (f : Failure)
  | adopt
  /-- The driver's `wait_for` ends: with the future, or because it took too long. -/
  | work (now : String) (late : Bool)
  /-- Any other step of the driver, the bridge or a caller; a result file that fails to be written
  has got to `n` operations. -/
  | driver (l : TaskLabel) (n : Nat)
  /-- Another task's result file, as far as `n` operations. -/
  | other (id : String) (rows : List Json) (n : Nat)
  /-- Retention: a file's time is up. -/
  | expire (name : String)

/-- What `wait_for` makes of the future. -/
def Fut.awaited (fut : Fut) (late : Bool) : Option (Except Raised Json) :=
  if late then some (.error (.failure .timeout))
  else
    match fut with
    | .over (.ok result) => some (.ok result)
    | .over (.error f) => some (.error (.failure f))
    | _ => none

/-- A step of the driver, and what it does to the directory. -/
def Handover.drive (c : Spawn) (s : Handover) (l : TaskLabel) (n : Nat) : Option Handover :=
  s.runner.bind fun r => (shelfStep c ⟨r, s.dir⟩ (.task l n)).map fun t =>
    { s with runner := some t.runner, dir := t.dir }

def handStep (c : Spawn) (s : Handover) : HandLabel → Option Handover
  | .start =>
    match s.fut with
    | .scheduled => some { s with fut := .running, starts := s.starts + 1 }
    | _ => none
  | .complete o =>
    match s.fut with
    | .running => some { s with fut := .over o }
    | _ => none
  | .timeout =>
    match s.handler, s.timedOut with
    | .waiting, false => some { s with timedOut := true }
    | _, _ => none
  -- `done` is what has ended when the handler goes on, not when it was woken
  | .wake =>
    match s.handler, s.fut, s.timedOut with
    | .waiting, .over (.ok result), _ => some { s with handler := .replied (.rows result) }
    | .waiting, .over (.error f), _ => some { s with handler := .replied (.raised f) }
    | .waiting, _, true => some { s with handler := .appending }
    | _, _, _ => none
  | .append =>
    match s.handler with
    | .appending => some { s with handler := .appended }
    | _ => none
  | .appendFails f =>
    match s.handler with
    | .appending => some { s with handler := .replied (.raised f) }
    | _ => none
  | .adopt =>
    match s.handler with
    | .appended =>
      some { s with handler := .replied (.task c.task), runner := some (Runner.init c) }
    | _ => none
  | .work now late => (s.fut.awaited late).bind fun o => s.drive c (.work now o) 0
  | .driver (.work _ _) _ => none
  | .driver l n => s.drive c l n
  | .other id rows n =>
    if id ≠ c.task.id then some { s with dir := s.dir.after ((persistOps id rows).take n) } else none
  | .expire name => some { s with dir := s.dir.after [.unlink name] }

/-! ## What is promised -/

/-- What the end of a record may say of the future: its rows, its error, that it took too long, or that
its rows could not be written, where `unwritten` says with what. -/
inductive Ending (c : Spawn) (unwritten : Failure → Prop) (fut : Fut) : Task → Prop
  | done (now : String) (result : Json) (h : fut = .over (.ok result)) :
    Ending c unwritten fut (c.doneRows now (rowsOf result))
  | failed (now : String) (f : Failure) (h : fut = .over (.error f)) :
    Ending c unwritten fut (c.settle now (.failure f))
  | overran (now : String) : Ending c unwritten fut (c.settle now (.failure .timeout))
  | lost (now : String) (f : Failure) (result : Json) (h : fut = .over (.ok result))
    (hf : unwritten f) : Ending c unwritten fut (c.settle now (.failure f))

/-- Nobody cancels, and every line of the log is written; a result file may fail to be. -/
def Uncancelled (s : Handover) : HandLabel → Prop
  | .appendFails _ => False
  | .driver (.fail _) _ => ∀ r, s.runner = some r → ∃ rs b, r.running = some (.persist rs, b)
  | .driver (.throw _) _ | .driver .cancel _ | .driver (.joined _) _ | .driver .close _ => False
  | _ => True

/-- The bridge failed with this when it wrote for the driver. -/
def Unwritten (ls : List HandLabel) (f : Failure) : Prop := ∃ n, .driver (.fail f) n ∈ ls

/-- Retention has taken the result file of the record. -/
def FileExpired (c : Spawn) (ls : List HandLabel) : Prop := .expire (resultName c.task.id) ∈ ls

/-- What a step shows of its run: with what a result file failed to be written, and that retention took
the one of the record. -/
def Attests (c : Spawn) (unwritten : Failure → Prop) (gone : Prop) : HandLabel → Prop
  | .driver (.fail f) _ => unwritten f
  | .expire name => name = resultName c.task.id → gone
  | _ => True

/-- What the code goes on with by itself. -/
def HandLabel.forced : HandLabel → Bool
  | .appendFails _ | .driver (.fail _) _ | .driver (.throw _) _ | .driver .cancel _
  | .driver (.joined _) _ | .driver .close _ | .driver .other _ | .other _ _ _ | .expire _ => false
  | _ => true

/-- Nothing goes on by itself any more. -/
def AtRest (c : Spawn) (s : Handover) : Prop := ∀ l : HandLabel, l.forced = true → handStep c s l = none

/-! ## The driver of an adopted future -/

section Course

variable {c : Spawn} {unwritten : Failure → Prop} {fut : Fut} {r r' : Runner}

/-- Where the driver is and what its lines are: the birth alone, or the birth and the one end. -/
def Course (c : Spawn) (unwritten : Failure → Prop) (fut : Fut) (L : List Task) : Driver → Prop
  | .unstarted | .working => L = [c.task]
  | .awaiting (.logging _) _ => False
  | .awaiting (.persisting rs) o =>
    L = [c.task] ∧ (∃ x, fut = .over (.ok x) ∧ rs = rowsOf x) ∧ ∀ f, o = some (.error f) → unwritten f
  | .awaiting (.finishing t) o | .awaiting (.handling t) o =>
    L = [c.task, t] ∧ Ending c unwritten fut t ∧ ∀ f, o ≠ some (.error f)
  | .ended _ => ∃ t, L = [c.task, t] ∧ Ending c unwritten fut t

structure Driving (c : Spawn) (unwritten : Failure → Prop) (fut : Fut) (r : Runner) : Prop where
  queued : r.Queued
  calm : r.cancelRequested = false
  born : [c.task] <+: r.log
  course : Course c unwritten fut r.lines r.driver

/-- An end stays what it is while the future goes on. -/
theorem Ending.mono {fut' : Fut} (h : ∀ o, fut = .over o → fut' = .over o) {t : Task}
    (ht : Ending c unwritten fut t) : Ending c unwritten fut' t := by
  cases ht with
  | done now x hx => exact .done now x (h _ hx)
  | failed now f hf => exact .failed now f (h _ hf)
  | overran now => exact .overran now
  | lost now f x hx hf => exact .lost now f x (h _ hx) hf

theorem Course.mono {fut' : Fut} (h : ∀ o, fut = .over o → fut' = .over o) {L : List Task} {d : Driver}
    (hc : Course c unwritten fut L d) : Course c unwritten fut' L d := by
  match d with
  | .unstarted | .working => exact hc
  | .awaiting (.logging _) _ => exact hc
  | .awaiting (.persisting rs) o =>
    obtain ⟨hL, ⟨x, hx, hrs⟩, ho⟩ := hc
    exact ⟨hL, ⟨x, h _ hx, hrs⟩, ho⟩
  | .awaiting (.finishing t) o | .awaiting (.handling t) o =>
    obtain ⟨hL, ht, ho⟩ := hc
    exact ⟨hL, ht.mono h, ho⟩
  | .ended _ =>
    obtain ⟨t, hL, ht⟩ := hc
    exact ⟨t, hL, ht.mono h⟩

theorem Driving.mono {fut' : Fut} (h : ∀ o, fut = .over o → fut' = .over o)
    (hd : Driving c unwritten fut r) : Driving c unwritten fut' r :=
  ⟨hd.queued, hd.calm, hd.born, hd.course.mono h⟩

/-- The driver goes on to its one end. -/
theorem Course.handle {t : Task} (ht : Ending c unwritten fut t) {L : List Task} (hL : L = [c.task]) :
    Course c unwritten fut (L ++ [t]) (.awaiting (.handling t) none) := by
  refine ⟨by rw [hL]; rfl, ht, by simp⟩

theorem driving_init : Driving c unwritten fut (Runner.init c) :=
  ⟨init_queued c, rfl, List.prefix_refl _, rfl⟩

/-- Hearing of a job that has been done moves nothing. -/
theorem Course.heard {L : List Task} {d : Driver} (h : Course c unwritten fut L d) (j : Job) (b : Bool) :
    Course c unwritten fut L (d.hear j b (.ok ())) := by
  unfold Driver.hear
  split
  · next p =>
    split
    · match p with
      | .logging _ => exact h
      | .persisting rs => exact ⟨h.1, h.2.1, by simp⟩
      | .finishing t | .handling t => exact ⟨h.1, h.2.1, by simp⟩
    · exact h
  · exact h

/-- Hearing that the result file could not be written. -/
theorem Course.unheard (hq : r.Queued) (h : Course c unwritten fut r.lines r.driver)
    {rs : List Json} {b : Bool} (hr : r.running = some (.persist rs, b)) {f : Failure}
    (hf : unwritten f) :
    Course c unwritten fut (r.log ++ linesOf r.queue) (r.driver.hear (.persist rs) b (.error f)) := by
  have hlines : r.log ++ linesOf r.queue = r.lines := by
    rw [lines, Runner.written, hr]
    show _ = (r.log ++ linesOf [.persist rs]) ++ _
    rw [show linesOf [Job.persist rs] = [] from rfl, List.append_nil]
  rw [hlines]
  unfold Driver.hear
  split
  · next p hd =>
    split
    · next hb =>
      obtain ⟨rfl, hj⟩ := Bool.and_eq_true_iff.mp hb
      have hjob := (lost_awaited hq hd hr hj).1
      cases p with
      | persisting rs' =>
        rw [hd] at h
        refine ⟨h.1, h.2.1, fun g hg => ?_⟩
        obtain rfl := Except.error.inj (Option.some.inj hg)
        exact hf
      | logging _ | finishing _ | handling _ => exact absurd hjob (by simp [Phase.job])
    · exact hd ▸ h
  · exact h

/-- The steps of a driver that is not disturbed and whose work is the future. -/
def Adopts (unwritten : Failure → Prop) (fut : Fut) (r : Runner) : TaskLabel → Prop
  | .work _ (.ok x) => fut = .over (.ok x)
  | .work _ (.error (.failure f)) => f = .timeout ∨ fut = .over (.error f)
  | .work _ (.error .cancelled) => False
  | .fail f => unwritten f ∧ ∃ rs b, r.running = some (.persist rs, b)
  | .throw _ | .cancel | .joined _ | .close => False
  | _ => True

/-- Every step but the end of the work with rows. -/
theorem moved_course (hcr : c.task.state = .running) (h : Driving c unwritten fut r) {l : TaskLabel}
    (hl : Adopts unwritten fut r l) (hno : ∀ now x, l ≠ .work now (.ok x)) {L : List Task} {d : Driver}
    (hm : Moved c r l L d) : Course c unwritten fut L d := by
  have hcourse := h.course
  cases hm with
  | adopted hd hr =>
    rw [hd] at hcourse
    exact hcourse
  | logging hd hr => exact absurd hcr hr
  | dropped now hd | stopped now hd | silenced now u o hd | interrupted now p o hd hp => exact hl.elim
  | rows now x rs hd => exact absurd rfl (hno now x)
  | stats now x hd => exact absurd rfl (hno now x)
  | raised now e hd =>
    rw [hd] at hcourse
    match e with
    | .cancelled => exact hl.elim
    | .failure f =>
      rcases hl with rfl | hf
      · exact Course.handle (.overran now) hcourse
      · exact Course.handle (.failed now f hf) hcourse
  | logged now u hd =>
    rw [hd] at hcourse
    exact hcourse.elim
  | stored now rs hd =>
    rw [hd] at hcourse
    obtain ⟨hL, ⟨x, hx, rfl⟩, -⟩ := hcourse
    exact ⟨by rw [hL]; rfl, .done now x hx, by simp⟩
  | finished now u hd =>
    rw [hd] at hcourse
    exact ⟨u, hcourse.1, hcourse.2.1⟩
  | settled now u o e hd =>
    rw [hd] at hcourse
    exact ⟨u, hcourse.1, hcourse.2.1⟩
  | handled now p f hd hp =>
    rw [hd] at hcourse
    match p with
    | .logging u => exact hcourse.elim
    | .persisting rs =>
      obtain ⟨hL, ⟨x, hx, -⟩, hf⟩ := hcourse
      exact Course.handle (.lost now f x hx (hf f rfl)) hL
    | .finishing u => exact absurd rfl (hcourse.2.2 f)
    | .handling u => exact absurd rfl (hp u)
  | written j b hr => exact hcourse.heard j b
  | lost f j b hr hj =>
    obtain ⟨hf, rs, b', hrun⟩ := hl
    obtain ⟨rfl, rfl⟩ := Prod.mk.inj (Option.some.inj (hr.symm.trans hrun))
    exact Course.unheard h.queued hcourse hr hf
  | still l => exact hcourse

/-- Nobody asks the driver to stop. -/
theorem calm_step {l : TaskLabel} (hcalm : r.cancelRequested = false) (hl : Adopts unwritten fut r l)
    (hstep : taskStep c r l = some r') : r'.cancelRequested = false := by
  cases taskStep_moves hstep with
  | dropped | stopped | silenced | interrupted | late | asked | rejected | joined | closed | close =>
    exact hl.elim
  | rows | stats | raised => rfl
  | _ => exact hcalm

theorem driving_step (hcr : c.task.state = .running) (hq : c.task.op = "query")
    (h : Driving c unwritten fut r) {l : TaskLabel} (hl : Adopts unwritten fut r l)
    (hstep : taskStep c r l = some r') : Driving c unwritten fut r' := by
  refine ⟨step_queued c r l r' h.queued hstep, calm_step h.calm hl hstep,
    h.born.trans (step_log hstep), ?_⟩
  by_cases hwork : ∃ now x, l = .work now (.ok x)
  · obtain ⟨now, x, rfl⟩ := hwork
    obtain ⟨hlines, hdriver⟩ := query_worked hq hstep
    have hwas : r.driver = .working := by
      cases taskStep_moves hstep with
      | rows hd | stats hd => exact hd
    have hcourse := h.course
    rw [hwas] at hcourse
    rw [hlines, hdriver]
    exact ⟨hcourse, ⟨x, hl, rfl⟩, by simp⟩
  · exact moved_course hcr h hl (fun now x heq => hwork ⟨now, x, heq⟩) (step_moved c hstep)

end Course

/-! ## What is left to do -/

def Driver.todo : Driver → Nat
  | .unstarted => 14
  | .awaiting (.logging _) _ => 11
  | .working => 10
  | .awaiting (.persisting _) _ => 7
  | .awaiting (.finishing _) _ => 4
  | .awaiting (.handling _) _ => 1
  | .ended _ => 0

/-- A queued job has two steps before it, one on the thread has one. -/
def Runner.todo (r : Runner) : Nat := r.driver.todo + 2 * r.queue.length + r.running.toList.length

def Fut.todo : Fut → Nat
  | .scheduled => 2
  | .running => 1
  | .over _ => 0

def Handler.todo : Handler → Nat
  | .waiting => 18
  | .appending => 16
  | .appended => 15
  | .replied _ => 0

def Handover.todo (s : Handover) : Nat :=
  s.fut.todo + (if s.timedOut then 0 else 1) + s.handler.todo + (s.runner.map Runner.todo).getD 0

/-- What a label pays in: somebody else's job is two steps more. -/
def TaskLabel.pays : TaskLabel → Nat
  | .other => 3
  | _ => 0

def HandLabel.pays : HandLabel → Nat
  | .driver l _ => l.pays
  | .other _ _ _ | .expire _ => 1
  | _ => 0

section Todo

variable {c : Spawn} {unwritten : Failure → Prop} {fut : Fut} {r r' : Runner}

theorem await_todo (r : Runner) (p : Phase) :
    (r.await p).todo = (Driver.awaiting p none).todo + 2 * r.queue.length + 2 + r.running.toList.length := by
  simp only [Runner.todo, Runner.await, Runner.post, List.length_append, List.length_singleton,
    Nat.mul_add, Nat.mul_one, ← Nat.add_assoc]

theorem hear_todo (d : Driver) (j : Job) (b : Bool) (o : Except Failure Unit) :
    (d.hear j b o).todo = d.todo := by
  unfold Driver.hear
  split
  · next p =>
    split
    · match p with
      | .logging _ | .persisting _ | .finishing _ | .handling _ => rfl
    · rfl
  · rfl

/-- A job of the bridge has ended. -/
theorem runner_hear_todo {j : Job} {b : Bool} (hr : r.running = some (j, b)) (o : Except Failure Unit) :
    (r.hear j b o).todo + 1 = r.todo := by
  simp only [Runner.todo, Runner.hear, hear_todo, hr, Option.toList_none, Option.toList_some,
    List.length_nil, List.length_singleton]

theorem todo_step {l : TaskLabel} (hl : Adopts unwritten fut r l) (hstep : taskStep c r l = some r') :
    r'.todo + 1 ≤ r.todo + l.pays := by
  cases taskStep_moves hstep with
  | dropped | stopped | silenced | interrupted | late | asked | rejected | joined | closed | close =>
    exact hl.elim
  | adopted hd | logged hd | finished hd | settled hd =>
    simp only [Runner.todo, hd, Driver.todo]
    omega
  | logging hd | rows hd | stats hd | stored hd =>
    rw [await_todo]
    simp only [Runner.todo, hd, Driver.todo]
    omega
  | raised hd =>
    rw [Runner.handle, await_todo]
    simp only [Runner.todo, hd, Driver.todo]
    omega
  | @handled now p f hd hp =>
    rw [Runner.handle, await_todo]
    cases p with
    | handling u => exact absurd rfl (hp u)
    | logging _ | persisting _ | finishing _ =>
      simp only [Runner.todo, hd, Driver.todo]
      omega
  | begin hr hq =>
    simp only [Runner.todo, hr, hq, Option.toList_none, Option.toList_some, List.length_nil,
      List.length_cons]
    omega
  | wrote hr | read hr | ran hr =>
    have hend := runner_hear_todo hr (.ok ())
    simp only [Runner.todo] at hend ⊢
    omega
  | @failed f j b hr hj =>
    have hend := runner_hear_todo hr (.error f)
    omega
  | other =>
    simp only [Runner.todo, Runner.post, List.length_append, List.length_singleton, TaskLabel.pays]
    omega

end Todo

/-! ## One step of the exchange -/

section Exchange

variable {c : Spawn} {unwritten : Failure → Prop} {gone : Prop} {s t : Handover}

/-- Where the handler is, and what there is of a record. -/
def Stage (c : Spawn) (unwritten : Failure → Prop) (s : Handover) : Prop :=
  match s.handler with
  | .waiting | .appending | .appended => s.runner = none
  | .replied (.rows x) => s.runner = none ∧ s.fut = .over (.ok x)
  | .replied (.raised f) => s.runner = none ∧ s.fut = .over (.error f)
  | .replied (.task u) => u = c.task ∧ ∃ r, s.runner = some r ∧ Driving c unwritten s.fut r

/-- The future has not come to anything but this result. -/
def Fut.MayGive (fut : Fut) (x : Json) : Prop := ∀ y, fut = .over (.ok y) → y = x

/-- The result file is there for a `done` line of the driver, and holds the rows the future gives. -/
def Filed (c : Spawn) (gone : Prop) (s : Handover) : Prop :=
  ∀ x, s.fut.MayGive x → ∀ r, s.runner = some r → Vouched c (rowsOf x) gone ⟨r, s.dir⟩

structure Exchange (c : Spawn) (unwritten : Failure → Prop) (gone : Prop) (s : Handover) : Prop where
  starts : s.starts = match s.fut with | .scheduled => 0 | _ => 1
  stage : Stage c unwritten s
  filed : Filed c gone s

/-- The future goes on and the rest stays. -/
theorem Stage.future {fut : Fut} {starts : Nat} (h : Stage c unwritten s)
    (hmono : ∀ o, s.fut = .over o → fut = .over o) :
    Stage c unwritten { s with fut := fut, starts := starts } := by
  unfold Stage at h ⊢
  dsimp only
  split at h
  · exact h
  · exact h
  · exact h
  · exact ⟨h.1, hmono _ h.2⟩
  · exact ⟨h.1, hmono _ h.2⟩
  · obtain ⟨hu, r, hr, hd⟩ := h
    exact ⟨hu, r, hr, hd.mono hmono⟩

/-- A record has a driver only after the reply. -/
theorem Stage.driven (h : Stage c unwritten s) {r : Runner} (hr : s.runner = some r) :
    s.handler = .replied (.task c.task) ∧ Driving c unwritten s.fut r := by
  unfold Stage at h
  split at h
  · exact absurd (hr.symm.trans h) (by simp)
  · exact absurd (hr.symm.trans h) (by simp)
  · exact absurd (hr.symm.trans h) (by simp)
  · exact absurd (hr.symm.trans h.1) (by simp)
  · exact absurd (hr.symm.trans h.1) (by simp)
  · next u hh =>
    obtain ⟨rfl, r', hr', hd⟩ := h
    obtain rfl := Option.some.inj (hr.symm.trans hr')
    exact ⟨hh, hd⟩

/-- A future that goes on may give less. -/
theorem Filed.future {fut : Fut} {starts : Nat} (h : Filed c gone s)
    (hmono : ∀ o, s.fut = .over o → fut = .over o) :
    Filed c gone { s with fut := fut, starts := starts } :=
  fun x hx => h x fun y hy => hx y (hmono _ hy)

/-- The work of an adopted future ends with the rows it gave. -/
theorem adopts_allowed {fut : Fut} {r : Runner} {l : TaskLabel} (hl : Adopts unwritten fut r l)
    {x : Json} (hx : fut.MayGive x) (u : Shelf) (n : Nat) : Allowed c (rowsOf x) gone u (.task l n) := by
  match l with
  | .work _ (.ok y) =>
    obtain rfl := hx y hl
    rfl
  | .work _ (.error _) | .enter | .throw _ | .resume _ | .begin | .finish | .fail _ | .other | .cancel
  | .joined _ | .close => trivial

theorem drive_step (hcr : c.task.state = .running) (hq : c.task.op = "query")
    (h : Exchange c unwritten gone s) {l : TaskLabel} {n : Nat}
    (hl : ∀ r, s.runner = some r → Adopts unwritten s.fut r l) (hstep : s.drive c l n = some t) :
    Exchange c unwritten gone t ∧ t.todo + 1 ≤ s.todo + l.pays := by
  obtain ⟨r, hr, hmap⟩ := Option.bind_eq_some_iff.mp hstep
  obtain ⟨u, hu, rfl⟩ := Option.map_eq_some_iff.mp hmap
  obtain ⟨r', hr', hshelf⟩ := Option.map_eq_some_iff.mp hu
  have hrunner : u.runner = r' := by rw [← hshelf]
  obtain ⟨hhandler, hd⟩ := h.stage.driven hr
  have hdriving := driving_step hcr hq hd (hl r hr) hr'
  have hless := todo_step (hl r hr) hr'
  refine ⟨⟨h.starts, ?_, fun x hx r'' hr'' => ?_⟩, ?_⟩
  · show Stage c unwritten { s with runner := some u.runner, dir := u.dir }
    unfold Stage
    rw [show ({ s with runner := some u.runner, dir := u.dir } : Handover).handler
      = .replied (.task c.task) from hhandler]
    exact ⟨rfl, u.runner, rfl, hrunner ▸ hdriving⟩
  · obtain rfl := Option.some.inj hr''
    exact shelf_step hq _ _ u (h.filed x hx r hr) (adopts_allowed (hl r hr) hx _ n) hu
  · simp only [Handover.todo, hr, hrunner, Option.map_some, Option.getD_some]
    omega

/-- Other tasks and retention work on the directory alone. -/
theorem directory_step (hq : c.task.op = "query") (h : Exchange c unwritten gone s) {l : ShelfLabel}
    {d : ResultDir} (hstep : ∀ r, shelfStep c ⟨r, s.dir⟩ l = some ⟨r, d⟩)
    (hl : ∀ rows u, Allowed c rows gone u l) :
    Exchange c unwritten gone { s with dir := d } :=
  ⟨h.starts, h.stage, fun x hx r hr => shelf_step hq _ _ _ (h.filed x hx r hr) (hl _ _) (hstep r)⟩

/-- What the future has come to is what the driver's work may be. -/
theorem awaited_adopts {fut : Fut} {late : Bool} {o : Except Raised Json}
    (h : fut.awaited late = some o) (r : Runner) (now : String) :
    Adopts unwritten fut r (.work now o) := by
  unfold Fut.awaited at h
  split at h
  · obtain rfl := Option.some.inj h
    exact Or.inl rfl
  · split at h
    · obtain rfl := Option.some.inj h
      rfl
    · obtain rfl := Option.some.inj h
      exact Or.inr rfl
    · exact absurd h (by simp)

theorem exchange_step (hcr : c.task.state = .running) (hq : c.task.op = "query") (s : Handover)
    (l : HandLabel) (t : Handover) (h : Exchange c unwritten gone s)
    (hg : Uncancelled s l ∧ Attests c unwritten gone l) (hstep : handStep c s l = some t) :
    Exchange c unwritten gone t ∧ t.todo + 1 ≤ s.todo + l.pays := by
  have hstage := h.stage
  match l with
  | .start =>
    simp only [handStep] at hstep
    split at hstep
    · next hf =>
      obtain rfl := Option.some.inj hstep
      have hzero := h.starts
      rw [hf] at hzero
      have hmono : ∀ o, s.fut = .over o → Fut.running = .over o := fun o ho =>
        absurd (hf.symm.trans ho) (by simp)
      refine ⟨⟨congrArg (· + 1) hzero, hstage.future hmono, h.filed.future hmono⟩, ?_⟩
      simp only [Handover.todo, hf, Fut.todo]
      omega
    · exact absurd hstep (by simp)
  | .complete o =>
    simp only [handStep] at hstep
    split at hstep
    · next hf =>
      obtain rfl := Option.some.inj hstep
      have hone := h.starts
      rw [hf] at hone
      have hmono : ∀ o', s.fut = .over o' → Fut.over o = .over o' := fun o' ho =>
        absurd (hf.symm.trans ho) (by simp)
      refine ⟨⟨hone, hstage.future hmono, h.filed.future hmono⟩, ?_⟩
      simp only [Handover.todo, hf, Fut.todo]
      omega
    · exact absurd hstep (by simp)
  | .timeout =>
    simp only [handStep] at hstep
    split at hstep
    · next hh ht =>
      obtain rfl := Option.some.inj hstep
      refine ⟨⟨h.starts, hstage, h.filed⟩, ?_⟩
      show s.fut.todo + 0 + _ + _ + 1 ≤ _
      simp only [Handover.todo, ht, Bool.false_eq_true, if_false, HandLabel.pays]
      omega
    · exact absurd hstep (by simp)
  | .wake =>
    simp only [handStep] at hstep
    split at hstep
    · next x hh hf =>
      obtain rfl := Option.some.inj hstep
      rw [Stage, hh] at hstage
      refine ⟨⟨h.starts, ⟨hstage, hf⟩, h.filed⟩, ?_⟩
      simp only [Handover.todo, hh, Handler.todo]
      omega
    · next f hh hf =>
      obtain rfl := Option.some.inj hstep
      rw [Stage, hh] at hstage
      refine ⟨⟨h.starts, ⟨hstage, hf⟩, h.filed⟩, ?_⟩
      simp only [Handover.todo, hh, Handler.todo]
      omega
    · next hh _ _ _ =>
      obtain rfl := Option.some.inj hstep
      rw [Stage, hh] at hstage
      refine ⟨⟨h.starts, hstage, h.filed⟩, ?_⟩
      simp only [Handover.todo, hh, Handler.todo]
      omega
    · exact absurd hstep (by simp)
  | .append =>
    simp only [handStep] at hstep
    split at hstep
    · next hh =>
      obtain rfl := Option.some.inj hstep
      rw [Stage, hh] at hstage
      refine ⟨⟨h.starts, hstage, h.filed⟩, ?_⟩
      simp only [Handover.todo, hh, Handler.todo]
      omega
    · exact absurd hstep (by simp)
  | .appendFails f => exact hg.1.elim
  | .adopt =>
    simp only [handStep] at hstep
    split at hstep
    · next hh =>
      obtain rfl := Option.some.inj hstep
      rw [Stage, hh] at hstage
      -- the driver has nothing to vouch for yet, whatever files are there
      refine ⟨⟨h.starts, ⟨rfl, _, rfl, driving_init⟩, fun x _ r hr => ?_⟩, ?_⟩
      · obtain rfl := Option.some.inj hr
        exact shelf_init s.dir
      have hborn : (Runner.init c).todo = 14 := rfl
      simp only [Handover.todo, hh, Handler.todo, show s.runner = none from hstage, Option.map_some,
        Option.getD_some, Option.map_none, Option.getD_none, hborn]
      omega
    · exact absurd hstep (by simp)
  | .work now late =>
    obtain ⟨o, ho, hdrive⟩ := Option.bind_eq_some_iff.mp hstep
    exact drive_step hcr hq h (fun r _ => awaited_adopts ho r now) hdrive
  | .driver l n =>
    match l with
    | .work _ _ => exact absurd hstep (by simp [handStep])
    | .throw _ | .cancel | .joined _ | .close => exact hg.1.elim
    | .fail f => exact drive_step (l := .fail f) hcr hq h (fun r hr => ⟨hg.2, hg.1 r hr⟩) hstep
    | .enter => exact drive_step (l := .enter) hcr hq h (fun _ _ => trivial) hstep
    | .resume now => exact drive_step (l := .resume now) hcr hq h (fun _ _ => trivial) hstep
    | .begin => exact drive_step (l := .begin) hcr hq h (fun _ _ => trivial) hstep
    | .finish => exact drive_step (l := .finish) hcr hq h (fun _ _ => trivial) hstep
    | .other => exact drive_step (l := .other) hcr hq h (fun _ _ => trivial) hstep
  | .other id rows n =>
    simp only [handStep] at hstep
    split at hstep
    · next hid =>
      obtain rfl := Option.some.inj hstep
      refine ⟨directory_step (l := .other id rows n) hq h (fun r => if_pos hid) fun _ _ => trivial, ?_⟩
      exact Nat.le_refl (s.todo + 1)
    · exact absurd hstep (by simp)
  | .expire name =>
    obtain rfl := Option.some.inj hstep
    refine ⟨directory_step (l := .expire name) hq h (fun _ => rfl) fun _ _ => hg.2, ?_⟩
    exact Nat.le_refl (s.todo + 1)

theorem exchange_init (d : ResultDir) : Exchange c unwritten gone (Handover.init d (.ok ())) :=
  ⟨rfl, rfl, fun _ _ r hr => absurd hr (by simp [Handover.init])⟩

/-- Each step shows what the run is said to have. -/
theorem attests_of_mem {ls : List HandLabel} {l : HandLabel} (hl : l ∈ ls) :
    Attests c (Unwritten ls) (FileExpired c ls) l := by
  match l with
  | .driver (.fail f) n => exact ⟨n, hl⟩
  | .expire name =>
    rintro rfl
    exact hl
  | .start | .complete _ | .timeout | .wake | .append | .appendFails _ | .adopt | .work _ _
  | .driver .enter _ | .driver (.throw _) _ | .driver (.work _ _) _ | .driver (.resume _) _
  | .driver .begin _ | .driver .finish _ | .driver .other _ | .driver .cancel _ | .driver (.joined _) _
  | .driver .close _ | .other _ _ _ => trivial

theorem run_exchange (hcr : c.task.state = .running) (hq : c.task.op = "query") {d : ResultDir}
    {ls : List HandLabel} (hg : Guarded (handStep c) Uncancelled (Handover.init d (.ok ())) ls)
    (hrun : run (handStep c) (Handover.init d (.ok ())) ls = some s) :
    Exchange c (Unwritten ls) (FileExpired c ls) s ∧ ls.length ≤ 21 + (ls.map HandLabel.pays).sum := by
  have hguard : Guarded (handStep c)
      (fun s l => Uncancelled s l ∧ Attests c (Unwritten ls) (FileExpired c ls) l)
      (Handover.init d (.ok ())) ls :=
    hg.and_forall fun l hl _ => attests_of_mem hl
  refine ⟨run_guarded (fun s l t h hl hstep => (exchange_step hcr hq s l t h hl hstep).1)
    (exchange_init d) hguard hrun, ?_⟩
  have hspent := run_spends (exchange_step hcr hq) (exchange_init d) hguard hrun
  have hinit : (Handover.init d (.ok ())).todo = 21 := rfl
  omega

/-! ## What has been delivered -/

/-- What `result` answers for a `done` record: the rows the future gave, until retention takes their
file. -/
def Answers (c : Spawn) (gone : Prop) (s : Handover) (t : Task) : Prop :=
  ∀ x, s.fut = .over (.ok x) → t.state = .done → t.result s.dir = .ok (rowsOf x) ∨ gone ∧ t.result s.dir
    = .error (.query ("task " ++ c.task.id ++ " result expired (retention GC)"))

/-- The record has its one end. -/
def Ended (c : Spawn) (unwritten : Failure → Prop) (gone : Prop) (s : Handover) : Prop :=
  ∃ t, s.log c = [c.task, t] ∧ Ending c unwritten s.fut t ∧ Answers c gone s t

/-- What the client and the record have been told so far. -/
def Told (c : Spawn) (unwritten : Failure → Prop) (gone : Prop) (s : Handover) : Prop :=
  match s.handler with
  | .waiting | .appending => s.log c = []
  | .appended => s.log c = [c.task]
  | .replied (.rows x) => s.fut = .over (.ok x) ∧ s.log c = []
  | .replied (.raised f) => s.fut = .over (.error f) ∧ s.log c = []
  | .replied (.task u) => u = c.task ∧ (s.log c = [c.task] ∨ Ended c unwritten gone s)

/-- The outcome has reached the client, or the record it was told of. -/
def Concluded (c : Spawn) (unwritten : Failure → Prop) (gone : Prop) (s : Handover) : Prop :=
  match s.handler with
  | .replied (.task _) => Ended c unwritten gone s
  | .replied _ => True
  | _ => False

theorem course_lines {fut : Fut} {L : List Task} {d : Driver} (h : Course c unwritten fut L d) :
    L = [c.task] ∨ ∃ t, L = [c.task, t] ∧ Ending c unwritten fut t := by
  match d with
  | .unstarted | .working => exact Or.inl h
  | .awaiting (.logging _) _ => exact h.elim
  | .awaiting (.persisting _) _ => exact Or.inl h.1
  | .awaiting (.finishing t) _ | .awaiting (.handling t) _ => exact Or.inr ⟨t, h.1, h.2.1⟩
  | .ended _ => exact Or.inr h

/-- What is logged is the birth, or the birth and the end. -/
theorem driving_log {fut : Fut} {r : Runner} (h : Driving c unwritten fut r) :
    r.log = [c.task] ∨ ∃ t, r.log = [c.task, t] ∧ Ending c unwritten fut t := by
  have hpre : r.log <+: r.lines := by
    rw [lines, Runner.written, List.append_assoc]
    exact List.prefix_append _ _
  obtain ⟨rest, hrest⟩ := h.born
  rcases course_lines h.course with hL | ⟨t, hL, ht⟩
  · rw [hL] at hpre
    exact Or.inl (h.born.eq_of_length_le hpre.length_le).symm
  · rw [hL, ← hrest, List.singleton_append, List.cons_prefix_cons] at hpre
    rcases List.prefix_cons_iff.mp hpre.2 with hnil | ⟨more, hmore, hend⟩
    · exact Or.inl (by rw [← hrest, hnil]; rfl)
    · obtain rfl := List.prefix_nil.mp hend
      exact Or.inr ⟨t, by rw [← hrest, hmore]; rfl, ht⟩

/-- A line of the driver that says `done` has its file. -/
theorem Filed.answers (hq : c.task.op = "query") (h : Filed c gone s) {r : Runner}
    (hr : s.runner = some r) {t : Task} (ht : t ∈ r.lines) : Answers c gone s t := by
  intro x hx hdone
  -- the future is over, so `Filed` speaks of its rows
  have hgives : s.fut.MayGive x := fun y hy =>
    (Except.ok.inj (Fut.over.inj (hx.symm.trans hy))).symm
  obtain ⟨-, hop, hid, hkept⟩ := (h x hgives r hr).lines t ht hdone
  exact result_kept hdone (hop.trans hq) hid hkept

theorem exchange_delivered (hq : c.task.op = "query") (h : Exchange c unwritten gone s) :
    Told c unwritten gone s := by
  have hstage := h.stage
  unfold Told
  unfold Stage at hstage
  split at hstage
  · next hh => simp only [hh, Handover.log, hstage]
  · next hh => simp only [hh, Handover.log, hstage]
  · next hh => simp only [hh, Handover.log]
  · next x hh => simp only [hh, Handover.log, hstage.1, hstage.2, and_self]
  · next f hh => simp only [hh, Handover.log, hstage.1, hstage.2, and_self]
  · next u hh =>
    obtain ⟨hu, r, hr, hd⟩ := hstage
    have hlog : s.log c = r.log := by simp only [Handover.log, hh, hr]
    refine ⟨hu, ?_⟩
    rcases driving_log hd with hborn | ⟨t, hlines, hend⟩
    · exact Or.inl (hlog.trans hborn)
    · have hmem : t ∈ r.lines :=
        List.mem_append_left _ (List.mem_append_left _ (by rw [hlines]; simp))
      exact Or.inr ⟨t, hlog.trans hlines, hend, h.filed.answers hq hr hmem⟩

/-! ## Rest -/

theorem drive_none {r : Runner} (hr : s.runner = some r) {l : TaskLabel} {n : Nat}
    (h : s.drive c l n = none) : taskStep c r l = none := by
  rw [Handover.drive, hr] at h
  exact Option.map_eq_none_iff.mp (Option.map_eq_none_iff.mp h)

/-- Where nothing goes on, the query has ended. -/
theorem rest_over (h : AtRest c s) : ∃ o, s.fut = .over o := by
  match hf : s.fut with
  | .scheduled =>
    have hstart := h .start rfl
    simp [handStep, hf] at hstart
  | .running =>
    have hcomplete := h (.complete (.ok .null)) rfl
    simp [handStep, hf] at hcomplete
  | .over o => exact ⟨o, rfl⟩

/-- Where nothing goes on, the handler has replied. -/
theorem rest_replied (h : AtRest c s) : ∃ r, s.handler = .replied r := by
  obtain ⟨o, ho⟩ := rest_over h
  match hh : s.handler with
  | .waiting =>
    have hwake := h .wake rfl
    cases o <;> simp [handStep, hh, ho] at hwake
  | .appending =>
    have happend := h .append rfl
    simp [handStep, hh] at happend
  | .appended =>
    have hadopt := h .adopt rfl
    simp [handStep, hh] at hadopt
  | .replied r => exact ⟨r, rfl⟩

/-- Where nothing goes on, the bridge is idle and the driver has ended. -/
theorem rest_driver (h : AtRest c s) {r : Runner} (hr : s.runner = some r)
    (hd : Driving c unwritten s.fut r) : r.log = r.lines ∧ ∃ e, r.driver = .ended e := by
  have hrun : r.running = none := by
    have hfinish := drive_none hr (h (.driver .finish 0) rfl)
    rcases hrun : r.running with _ | ⟨j, b⟩
    · rfl
    · cases j <;> simp [taskStep, hrun] at hfinish
  have hqueue : r.queue = [] := by
    have hbegin := drive_none hr (h (.driver .begin 0) rfl)
    rcases hq : r.queue with _ | ⟨j, js⟩
    · rfl
    · simp [taskStep, hrun, hq] at hbegin
  refine ⟨by simp [lines, Runner.written, hrun, hqueue, linesOf], ?_⟩
  cases hw : r.driver with
  | unstarted =>
    have henter := drive_none hr (h (.driver .enter 0) rfl)
    simp only [taskStep, hw, hd.calm] at henter
    split at henter <;> exact absurd henter (by simp)
  | working =>
    obtain ⟨o, ho⟩ := rest_over h
    have hwork := h (.work "" false) rfl
    cases o <;> simp [handStep, Fut.awaited, ho, Handover.drive, hr, shelfStep, taskStep, hw] at hwork
  | awaiting p heard =>
    cases heard with
    | some o =>
      have hresume := drive_none hr (h (.driver (.resume "") 0) rfl)
      simp [taskStep, hw, hd.calm] at hresume
    | none =>
      rcases hd.queued.inFlight p hw with ⟨hjobs, -⟩ | ⟨-, hthread⟩
      · rw [hqueue] at hjobs
        exact absurd hjobs (by simp [ownJobs])
      · exact absurd (hrun.symm.trans hthread) (by simp)
  | ended e => exact ⟨e, rfl⟩

theorem rest_concluded (hq : c.task.op = "query") (h : Exchange c unwritten gone s)
    (hrest : AtRest c s) : s.starts = 1 ∧ Concluded c unwritten gone s := by
  obtain ⟨o, ho⟩ := rest_over hrest
  obtain ⟨reply, hreply⟩ := rest_replied hrest
  refine ⟨by rw [h.starts, ho], ?_⟩
  have hstage := h.stage
  rw [Concluded, hreply]
  rw [Stage, hreply] at hstage
  match reply with
  | .rows x | .raised f => trivial
  | .task u =>
    obtain ⟨-, r, hr, hd⟩ := hstage
    obtain ⟨hlog, e, he⟩ := rest_driver hrest hr hd
    have hcourse := hd.course
    rw [he] at hcourse
    obtain ⟨t, hL, ht⟩ := hcourse
    refine ⟨t, ?_, ht, h.filed.answers hq hr (by rw [hL]; simp)⟩
    rw [Handover.log, hreply, hr]
    exact hlog.trans hL

end Exchange

/-- In every order of the query's end, the timeout, the append and the driver's steps, with no
cancellation and every log line written, while other tasks write their files and retention takes any:
the query is started once; the handler's reply is its outcome, and then there is no record, or the record's
birth, and then the record gets one end.  That is the error, that it took too long, with what its rows
could not be written, or `done`, and then `result` answers exactly the rows until retention takes their
file.  When nothing goes on any more the outcome is delivered, and that comes after boundedly many
steps. -/
theorem escalation_hands_over {c : Spawn} {d : ResultDir} {ls : List HandLabel} {s : Handover}
    (hcr : c.task.state = .running) (hq : c.task.op = "query")
    (hg : Guarded (handStep c) Uncancelled (Handover.init d (.ok ())) ls)
    (hrun : run (handStep c) (Handover.init d (.ok ())) ls = some s) :
    s.starts ≤ 1 ∧ Told c (Unwritten ls) (FileExpired c ls) s
      ∧ (AtRest c s → s.starts = 1 ∧ Concluded c (Unwritten ls) (FileExpired c ls) s)
      ∧ ls.length ≤ 21 + (ls.map HandLabel.pays).sum := by
  obtain ⟨hex, hlen⟩ := run_exchange hcr hq hg hrun
  refine ⟨?_, exchange_delivered hq hex, rest_concluded hq hex, hlen⟩
  rw [hex.starts]
  split <;> omega

/-! ## Two runs -/

/-- A record that is adopted. -/
def mapTask : Spawn where
  task := ⟨"tk_20260801_0a1b2c3d4e5f", "query", .running, none, none, none,
    some "SELECT MAP([DATE '2026-08-01'], [1]) AS m", none, some "2026-08-01T09:00:00Z", none⟩
  timeout := "300"
  born := Or.inr rfl

def emptyDir : ResultDir := fun _ => none

/-- The query ends while the record is appended, and another task writes its file. -/
def overtaken : List HandLabel :=
  [.start, .timeout, .wake, .complete (.ok (.arr [.obj [("n", .int 1)]])), .append, .adopt,
    .other "tk_20260801_ffffffffffff" [.null] 2,
    .driver .enter 0, .work "09:00:05" false, .driver .begin 0, .driver .finish 0,
    .driver (.resume "09:00:06") 0, .driver .begin 0, .driver .finish 0, .driver (.resume "09:00:07") 0]

theorem overtaken_uncancelled :
    Guarded (handStep mapTask) Uncancelled (Handover.init emptyDir (.ok ())) overtaken := by
  repeat
    refine ⟨trivial, fun t ht => ?_⟩
    obtain rfl := Option.some.inj ht
  trivial

/-- An idle bridge and a driver that has ended have nothing left to do. -/
theorem at_rest_of {c : Spawn} {s : Handover} {o : Except Failure Json} {u : HttpReply} {r : Runner}
    {e : Option Raised} (hf : s.fut = .over o) (hh : s.handler = .replied u) (hr : s.runner = some r)
    (hd : r.driver = .ended e) (hcalm : r.cancelRequested = false) (hq : r.queue = [])
    (hrun : r.running = none) : AtRest c s := by
  intro l hl
  match l with
  | .start | .complete _ => simp [handStep, hf]
  | .timeout | .wake | .append | .adopt => simp [handStep, hh]
  | .work now late =>
    show (s.fut.awaited late).bind (fun o => s.drive c (.work now o) 0) = none
    refine Option.bind_eq_none_iff.mpr fun o _ => ?_
    simp [Handover.drive, hr, shelfStep, taskStep, hd]
  | .driver .enter _ | .driver (.resume _) _ | .driver .begin _ | .driver .finish _ =>
    simp [handStep, Handover.drive, hr, shelfStep, taskStep, hd, hcalm, hq, hrun]
  | .driver (.work _ _) _ => rfl

/-- Its rows are what the record ends with, and what its result file holds. -/
theorem escalation_hands_over_map :
    ∃ s, run (handStep mapTask) (Handover.init emptyDir (.ok ())) overtaken = some s ∧ s.starts = 1
      ∧ s.log mapTask = [mapTask.task, mapTask.doneRows "09:00:06" [.obj [("n", .int 1)]]]
      ∧ (mapTask.doneRows "09:00:06" [.obj [("n", .int 1)]]).result s.dir
        = .ok [.obj [("n", .int 1)]] := by
  have hrun : ∃ s r, run (handStep mapTask) (Handover.init emptyDir (.ok ())) overtaken = some s
      ∧ s.fut = .over (.ok (.arr [.obj [("n", .int 1)]])) ∧ s.handler = .replied (.task mapTask.task)
      ∧ s.runner = some r ∧ r.driver = .ended none ∧ r.cancelRequested = false ∧ r.queue = []
      ∧ r.running = none
      ∧ s.log mapTask = [mapTask.task, mapTask.doneRows "09:00:06" [.obj [("n", .int 1)]]] :=
    ⟨_, _, rfl, rfl, rfl, rfl, rfl, rfl, rfl, rfl, rfl⟩
  obtain ⟨s, r, hs, hf, hh, hr, hd, hcalm, hq, hidle, hlog⟩ := hrun
  have hrest := at_rest_of (c := mapTask) hf hh hr hd hcalm hq hidle
  obtain ⟨hone, hend⟩ := (escalation_hands_over rfl rfl overtaken_uncancelled hs).2.2.1 hrest
  rw [Concluded, hh] at hend
  obtain ⟨t, ht, -, hanswers⟩ := hend
  obtain rfl := (List.cons.inj (List.cons.inj (hlog.symm.trans ht)).2).1
  refine ⟨s, hs, hone, hlog, (hanswers _ hf rfl).resolve_right fun h => ?_⟩
  -- retention took nothing
  exact absurd h.1 (by simp [FileExpired, overtaken])

/-- The query answers in time for the task, with a dict that has a date for a key: `default=str` is not
asked about keys, so writing the row raises. -/
def unwritable : List HandLabel :=
  [.start, .timeout, .wake, .append, .adopt, .driver .enter 0,
    .complete (.ok (.arr [.obj [("m", .obj [("2026-08-01", .int 1)])]])), .work "09:00:05" false,
    .driver .begin 0,
    .driver (.fail (.error "TypeError" "keys must be str, int, float, bool or None, not datetime.date")) 1,
    .driver (.resume "09:00:06") 0, .driver .begin 0, .driver .finish 0, .driver (.resume "09:00:07") 0]

theorem unwritable_uncancelled :
    Guarded (handStep mapTask) Uncancelled (Handover.init emptyDir (.ok ())) unwritable := by
  repeat
    refine ⟨?_, fun t ht => ?_⟩
    · first
        | trivial
        | (intro r hr; obtain rfl := Option.some.inj hr; exact ⟨_, _, rfl⟩)
    obtain rfl := Option.some.inj ht
  trivial

/-- The query succeeded, the client was told of a task, and the task ends neither with its rows nor with
an error of the query, nor with its maximal runtime. -/
theorem rows_go_unwritten :
    ∃ s, run (handStep mapTask) (Handover.init emptyDir (.ok ())) unwritable = some s
    ∧ Guarded (handStep mapTask) Uncancelled (Handover.init emptyDir (.ok ())) unwritable
    ∧ AtRest mapTask s ∧ s.handler = .replied (.task mapTask.task)
    ∧ ¬ Concluded mapTask (fun _ => False) (FileExpired mapTask unwritable) s := by
  have hrun : ∃ s r, run (handStep mapTask) (Handover.init emptyDir (.ok ())) unwritable = some s
      ∧ s.fut = .over (.ok (.arr [.obj [("m", .obj [("2026-08-01", .int 1)])]]))
      ∧ s.handler = .replied (.task mapTask.task) ∧ s.runner = some r ∧ r.driver = .ended none
      ∧ r.cancelRequested = false ∧ r.queue = [] ∧ r.running = none
      ∧ s.log mapTask = [mapTask.task, mapTask.settle "09:00:06" (.failure
          (.error "TypeError" "keys must be str, int, float, bool or None, not datetime.date"))] :=
    ⟨_, _, rfl, rfl, rfl, rfl, rfl, rfl, rfl, rfl, rfl⟩
  obtain ⟨s, r, hs, hf, hh, hr, hd, hcalm, hq, hidle, hlog⟩ := hrun
  refine ⟨s, hs, unwritable_uncancelled, at_rest_of hf hh hr hd hcalm hq hidle, hh, ?_⟩
  rw [Concluded, hh]
  rintro ⟨t, ht, hend, -⟩
  have hu := (List.cons.inj (List.cons.inj (hlog.symm.trans ht)).2).1
  cases hend with
  | done now x hx => exact absurd (congrArg Task.state hu) (by simp [Spawn.settle, Spawn.doneRows])
  | failed now f hfailed => exact absurd (hf.symm.trans hfailed) (by simp)
  | overran now =>
    have hother : (mapTask.settle "09:00:06" (.failure (.error "TypeError"
          "keys must be str, int, float, bool or None, not datetime.date"))).error
        ≠ (mapTask.settle now (.failure .timeout)).error := by
      show some _ ≠ some ("exceeded max task runtime (" ++ mapTask.timeout ++ "s)")
      decide +kernel
    exact hother (congrArg Task.error hu)
  | lost now f x hx hno => exact hno

end Seekbase
