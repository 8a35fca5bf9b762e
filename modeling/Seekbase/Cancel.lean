/-
# Seekbase.Cancel — what the log of a cancelled task says, ∀ interleavings.

Two questions about the lines of one id.  Does the last one SETTLE the task by the time `cancel`
returns?  And is a settled state FINAL, that is, do the states form a prefix of the life a task is
meant to have?  Both are properties of `Runner.lines`, which one step changes in one of the ways that
`Moved` lists; what remains is a short case analysis for each.

* `cancel_settles`  — if no cancellation lands before the driver's first step, or on a terminal line
                      that is still queued, a `cancel` that returns has read a settled state;
* `settled_is_final` — if none lands on a `done` line being written, or on a queued `running` line,
                      the states are a prefix of `pending, running, T` (of `running, T` if adopted).
-/
import Mathlib.Data.List.Infix
import Seekbase.Task

namespace Seekbase

open JsonText (Json)
open Transition Runner

/-! ## What a step does to the lines -/

/-- The lines and the driver after a step. -/
inductive Moved (c : Spawn) (s : Runner) : TaskLabel → List Task → Driver → Prop
  | adopted (hd : s.driver = .unstarted) (hr : c.task.state = .running) :
    Moved c s .enter s.lines .working
  | logging (hd : s.driver = .unstarted) (hr : c.task.state ≠ .running) :
    Moved c s .enter (s.lines ++ [c.current]) (.awaiting (.logging c.current) none)
  | dropped (now : String) (hd : s.driver = .unstarted) :
    Moved c s (.throw now) s.lines (.ended (some .cancelled))
  | stopped (now : String) (hd : s.driver = .working) :
    Moved c s (.throw now) (s.lines ++ [c.settle now .cancelled])
      (.awaiting (.handling (c.settle now .cancelled)) none)
  | silenced (now : String) (t : Task) (o : Option (Except Failure Unit))
    (hd : s.driver = .awaiting (.handling t) o) :
    Moved c s (.throw now) s.written (.ended (some .cancelled))
  | interrupted (now : String) (p : Phase) (o : Option (Except Failure Unit))
    (hd : s.driver = .awaiting p o) (hp : ∀ t, p ≠ .handling t) :
    Moved c s (.throw now) (s.written ++ [c.settle now .cancelled])
      (.awaiting (.handling (c.settle now .cancelled)) none)
  | rows (now : String) (r : Json) (rs : List Json) (hd : s.driver = .working) :
    Moved c s (.work now (.ok r)) s.lines (.awaiting (.persisting rs) none)
  | stats (now : String) (r : Json) (hd : s.driver = .working) :
    Moved c s (.work now (.ok r)) (s.lines ++ [c.doneStats now r])
      (.awaiting (.finishing (c.doneStats now r)) none)
  | raised (now : String) (e : Raised) (hd : s.driver = .working) :
    Moved c s (.work now (.error e)) (s.lines ++ [c.settle now e])
      (.awaiting (.handling (c.settle now e)) none)
  | logged (now : String) (t : Task) (hd : s.driver = .awaiting (.logging t) (some (.ok ()))) :
    Moved c s (.resume now) s.lines .working
  | stored (now : String) (rs : List Json)
    (hd : s.driver = .awaiting (.persisting rs) (some (.ok ()))) :
    Moved c s (.resume now) (s.lines ++ [c.doneRows now rs])
      (.awaiting (.finishing (c.doneRows now rs)) none)
  | finished (now : String) (t : Task) (hd : s.driver = .awaiting (.finishing t) (some (.ok ()))) :
    Moved c s (.resume now) s.lines (.ended none)
  | settled (now : String) (t : Task) (o : Except Failure Unit) (e : Option Raised)
    (hd : s.driver = .awaiting (.handling t) (some o)) :
    Moved c s (.resume now) s.lines (.ended e)
  | handled (now : String) (p : Phase) (f : Failure)
    (hd : s.driver = .awaiting p (some (.error f))) (hp : ∀ t, p ≠ .handling t) :
    Moved c s (.resume now) (s.lines ++ [c.settle now (.failure f)])
      (.awaiting (.handling (c.settle now (.failure f))) none)
  | written (j : Job) (awaited : Bool) (hr : s.running = some (j, awaited)) :
    Moved c s .finish s.lines (s.driver.hear j awaited (.ok ()))
  | lost (f : Failure) (j : Job) (awaited : Bool) (hr : s.running = some (j, awaited))
    (hj : j.own = true) :
    Moved c s (.fail f) (s.log ++ linesOf s.queue) (s.driver.hear j awaited (.error f))
  | still (l : TaskLabel) : Moved c s l s.lines s.driver

theorem Moved.cast {c : Spawn} {s : Runner} {l : TaskLabel} {L L' : List Task} {d : Driver}
    (h : Moved c s l L d) (hl : L = L') : Moved c s l L' d := hl ▸ h

/-- What is posted by somebody else, or moves between the queue and the thread, changes no line. -/
theorem lines_post (s : Runner) {j : Job} (hj : j.own = false) : (s.post j).lines = s.lines := by
  have hnone : linesOf [j] = [] := linesOf_nil (by simp [ownJobs, hj])
  show s.written ++ linesOf (s.queue ++ [j]) = _
  rw [linesOf_append, hnone, List.append_nil]
  rfl

/-- The driver goes on to what it awaits next: the line of that job, if it is one, is the last. -/
theorem Moved.posted {c : Spawn} {s u : Runner} {l : TaskLabel} {p : Phase} {L : List Task}
    (hu : u.lines = L) (h : Moved c s l (L ++ p.job.line?.toList) (.awaiting p none)) :
    Moved c s l (u.await p).lines (u.await p).driver := by
  rw [await_lines, hu]
  exact h

theorem step_moved (c : Spawn) {s t : Runner} {l : TaskLabel} (hstep : taskStep c s l = some t) :
    Moved c s l t.lines t.driver := by
  have habandoned := abandon_lines { s with cancelRequested := false }
  cases taskStep_moves hstep with
  | adopted hd hr => exact .adopted hd hr
  | logging hd hr => exact .posted rfl (.logging hd hr)
  | dropped hd => exact .dropped _ hd
  | stopped hd => exact .posted rfl (.stopped _ hd)
  | silenced hd => exact habandoned ▸ .silenced _ _ _ hd
  | interrupted hd hp => exact .posted habandoned (.interrupted _ _ _ hd hp)
  | rows hd => exact .posted rfl ((List.append_nil s.lines).symm ▸ .rows _ _ _ hd)
  | stats hd => exact .posted rfl (.stats _ _ hd)
  | raised hd => exact .posted rfl (.raised _ _ hd)
  | logged hd => exact .logged _ _ hd
  | stored hd => exact .posted rfl (.stored _ _ hd)
  | finished hd => exact .finished _ _ hd
  | settled hd => exact .settled _ _ _ _ hd
  | handled hd hp => exact .posted rfl (.handled _ _ _ hd hp)
  | @begin j queue hr hq =>
    have hl : (s.log ++ linesOf [j]) ++ linesOf queue = s.lines := by
      rw [lines, Runner.written, hr, hq, List.append_assoc, ← linesOf_append]
      simp [linesOf]
    exact (Moved.still .begin).cast hl.symm
  | @wrote u awaited hr =>
    have hl : s.lines = (s.log ++ [u] ++ linesOf []) ++ linesOf s.queue := by
      rw [lines, Runner.written, hr]
      simp [linesOf, Job.line?]
    exact (Moved.written _ awaited hr).cast hl
  | @read i awaited hr =>
    have hl : s.lines = s.log ++ linesOf [.status i] ++ linesOf s.queue := by
      rw [lines, Runner.written, hr]; rfl
    exact (Moved.written _ awaited hr).cast hl
  | @ran j awaited hr hj =>
    have hl : s.lines = s.log ++ linesOf [] ++ linesOf s.queue := by
      rw [lines, Runner.written, hr]
      simp [linesOf, hj]
    exact (Moved.written _ awaited hr).cast hl
  | @failed f j awaited hr hj =>
    have hl : (s.hear j awaited (.error f)).lines = s.log ++ linesOf s.queue := by
      show (s.log ++ linesOf []) ++ linesOf s.queue = _
      rw [linesOf, List.filterMap_nil, List.append_nil]
    exact hl ▸ .lost f j awaited hr hj
  | other => exact (lines_post s (j := .other) rfl).symm ▸ .still .other
  | late => exact (lines_post s (j := .status s.callers.length) rfl).symm ▸ .still .cancel
  | @joined i => exact (lines_post s (j := .status i) rfl).symm ▸ .still (.joined i)
  | asked | rejected | closed | close => exact .still _

theorem settle_settled (c : Spawn) (now : String) (e : Raised) :
    (c.settle now e).state.settled = true := by
  match e with
  | .cancelled => rfl
  | .failure .timeout => rfl
  | .failure (.error type message) => rfl

/-! ## Cancel settles -/

/-- The driver has posted a terminal line and has not heard that its `done` line failed. -/
def Driver.closed : Driver → Bool
  | .awaiting (.handling _) _ | .ended _ => true
  | .awaiting (.finishing _) (some (.error _)) => false
  | .awaiting (.finishing _) _ => true
  | _ => false

/-- No cancellation is delivered before the driver's first step, or to an `except` branch whose line
is still queued; and no `except` branch's line fails to be written.  (Either does no harm when another
terminal line is there.) -/
def CancelLands (s : Runner) : TaskLabel → Prop
  | .throw _ =>
    match s.driver with
    | .unstarted => False
    | .awaiting (.handling _) _ => ownJobs s.queue = [] ∨ ∃ t ∈ s.written, t.state.settled = true
    | _ => True
  | .fail _ =>
    match s.driver with
    | .awaiting (.handling _) _ | .ended _ => ∃ t ∈ s.log ++ linesOf s.queue, t.state.settled = true
    | _ => True
  | _ => True

/-- Terminal lines come last, and a driver that is over has one. -/
structure Settling (c : Spawn) (L : List Task) (d : Driver) : Prop where
  order : L.Pairwise fun a b => a.state.settled = true → b.state.settled = true
  birth : d = .unstarted → L = [c.task]
  closed : d.closed = true → ∃ t ∈ L, t.state.settled = true

section Settles

variable {c : Spawn} {s t : Runner} {L : List Task} {d d' : Driver}

theorem Settling.append (h : Settling c L d) {u : Task} (hu : u.state.settled = true)
    (hd : d' ≠ .unstarted) : Settling c (L ++ [u]) d' where
  order := by
    rw [List.pairwise_append]
    refine ⟨h.order, List.pairwise_singleton _ _, ?_⟩
    intro a _ b hb _
    obtain rfl := List.mem_singleton.mp hb
    exact hu
  birth hn := absurd hn hd
  closed _ := ⟨u, by simp, hu⟩

theorem Settling.moveOn (h : Settling c L d) (hd : d' ≠ .unstarted)
    (hclosed : d'.closed = true → d.closed = true) : Settling c L d' where
  order := h.order
  birth hn := absurd hn hd
  closed ho := h.closed (hclosed ho)

/-- A line is dropped, or fails, where another terminal line stays. -/
theorem Settling.drop (h : Settling c L d) {L' : List Task} (hsub : L'.Sublist L)
    (hd : d' ≠ .unstarted) (hclosed : d'.closed = true → ∃ t ∈ L', t.state.settled = true) :
    Settling c L' d' where
  order := h.order.sublist hsub
  birth hn := absurd hn hd
  closed := hclosed

theorem hear_ok_closed (d : Driver) (j : Job) (b : Bool) : (d.hear j b (.ok ())).closed = d.closed := by
  unfold Driver.hear
  split
  · next p =>
    split
    · cases p <;> rfl
    · rfl
  · rfl

theorem hear_unstarted {d : Driver} {j : Job} {b : Bool} {o : Except Failure Unit}
    (h : d.hear j b o = .unstarted) : d = .unstarted := by
  unfold Driver.hear at h
  split at h
  · split at h
    · exact absurd h (by simp)
    · exact h
  · exact h

/-- Only a job of an awaiting driver, or one whose driver is over, is on the bridge thread. -/
theorem running_own (hq : s.Queued) {j : Job} {b : Bool} (hr : s.running = some (j, b))
    (hj : j.own = true) : (∃ p, s.driver = .awaiting p none ∧ b = true)
      ∨ (∃ u o, s.driver = .awaiting (.handling u) o) ∨ ∃ e, s.driver = .ended e := by
  match b with
  | true =>
    by_cases hd : ∃ p, s.driver = .awaiting p none
    · rcases hd with ⟨p, hp⟩
      exact Or.inl ⟨p, hp, rfl⟩
    · have hno := (hq.idle fun p hp => hd ⟨p, hp⟩).running j hr
      rw [hj] at hno
      exact absurd hno (by simp)
  | false =>
    rcases hq.orphan j hr hj with ⟨u, hu, -⟩ | he
    · exact Or.inr (Or.inl ⟨u, none, hu⟩)
    · exact Or.inr (Or.inr he)

theorem settled_last (h : Settling c L d) {log : List Task} (hpre : log <+: L)
    (hex : ∃ t ∈ log, t.state.settled = true) :
    ∃ t, log.getLast? = some t ∧ t.state.settled = true := by
  rcases hex with ⟨u, hu, hs⟩
  have hne : log ≠ [] := List.ne_nil_of_mem hu
  refine ⟨log.getLast hne, List.getLast?_eq_some_getLast hne, ?_⟩
  have hord := h.order.sublist hpre.sublist
  rw [← List.dropLast_append_getLast hne] at hord hu
  rcases List.mem_append.mp hu with hin | hlast
  · exact (List.pairwise_append.mp hord).2.2 u hin _ (by simp) hs
  · obtain rfl := List.mem_singleton.mp hlast
    exact hs

theorem written_sublist (s : Runner) : s.written.Sublist s.lines := List.sublist_append_left _ _

theorem lost_sublist (s : Runner) : (s.log ++ linesOf s.queue).Sublist s.lines := by
  rw [lines, Runner.written]
  exact List.Sublist.append_right (List.sublist_append_left _ _) _

/-- Where nothing of the driver's is queued, every line is logged or on the bridge thread. -/
theorem lines_written (h : ownJobs s.queue = []) : s.lines = s.written := by
  rw [lines, linesOf_nil h, List.append_nil]

theorem moved_settling {l : TaskLabel} (hq : s.Queued) (h : Settling c s.lines s.driver)
    (hg : CancelLands s l) (hm : Moved c s l L d) : Settling c L d := by
  cases hm with
  | adopted hd hr => exact h.moveOn (by simp) (by simp [Driver.closed])
  | logging hd hr =>
    have hbirth := h.birth hd
    refine ⟨?_, by simp, by simp [Driver.closed]⟩
    -- the birth line of a submitted task is `pending`
    have hpending : c.task.state.settled = false := by
      rcases c.born with hp | hr'
      · rw [hp]; rfl
      · exact absurd hr' hr
    rw [hbirth, List.pairwise_append]
    refine ⟨List.pairwise_singleton _ _, List.pairwise_singleton _ _, ?_⟩
    intro a ha b _ hs
    obtain rfl := List.mem_singleton.mp ha
    rw [hpending] at hs
    exact absurd hs (by simp)
  | dropped now hd =>
    simp only [CancelLands, hd] at hg
  | stopped now hd => exact h.append (settle_settled _ _ _) (by simp)
  | silenced now u o hd =>
    simp only [CancelLands, hd] at hg
    refine h.drop (written_sublist s) (by simp) fun _ => ?_
    rcases hg with hnone | hex
    · rw [← lines_written hnone]
      exact h.closed (by rw [hd]; rfl)
    · exact hex
  | interrupted now p o hd hp =>
    have hkept : Settling c s.written .working :=
      h.drop (written_sublist s) (by simp) (by simp [Driver.closed])
    exact hkept.append (settle_settled _ _ _) (by simp)
  | rows now r rs hd => exact h.moveOn (by simp) (by simp [Driver.closed])
  | stats now r hd => exact h.append rfl (by simp)
  | raised now e hd => exact h.append (settle_settled _ _ _) (by simp)
  | logged now u hd => exact h.moveOn (by simp) (by simp [Driver.closed])
  | stored now rs hd => exact h.append rfl (by simp)
  | finished now u hd => exact h.moveOn (by simp) fun _ => by rw [hd]; rfl
  | settled now u o e hd => exact h.moveOn (by simp) fun _ => by rw [hd]; rfl
  | handled now p f hd hp => exact h.append (settle_settled _ _ _) (by simp)
  | written j b hr =>
    refine ⟨h.order, fun hn => h.birth (hear_unstarted hn), fun ho => h.closed ?_⟩
    rw [← hear_ok_closed s.driver j b]
    exact ho
  | lost f j b hr hj =>
    rcases running_own hq hr hj with ⟨p, hp, rfl⟩ | ⟨u, o, hu⟩ | ⟨e, he⟩
    · have hd : s.driver.hear j true (.error f) = .awaiting p (some (.error f)) := by
        rw [hp, Driver.hear, if_pos (by rw [hj]; rfl)]
      rw [hd]
      simp only [CancelLands, hp] at hg
      cases p with
      | logging u | persisting rs | finishing u =>
        exact h.drop (lost_sublist s) (by simp) (by simp [Driver.closed])
      | handling u => exact h.drop (lost_sublist s) (by simp) fun _ => hg
    · simp only [CancelLands, hu] at hg
      refine h.drop (lost_sublist s) (fun hn => ?_) fun _ => hg
      exact absurd (hear_unstarted hn) (by simp [hu])
    · simp only [CancelLands, he] at hg
      refine h.drop (lost_sublist s) (fun hn => ?_) fun _ => hg
      exact absurd (hear_unstarted hn) (by simp [he])
  | still l => exact h

/-- A status read is posted only after the driver has ended, and what one has returned is settled. -/
structure Calls (s : Runner) : Prop where
  queued : ∀ i, .status i ∈ s.queue → ∃ e, s.driver = .ended e
  running : ∀ i b, s.running = some (.status i, b) → ∃ e, s.driver = .ended e
  returned : ∀ r, .returned r ∈ s.callers → (∃ t, r = some t ∧ t.state.settled = true)
    ∧ ∃ t ∈ s.log, t.state.settled = true

/-- A driver that has ended stays ended. -/
theorem moved_ended {l : TaskLabel} {e : Option Raised} (hd : s.driver = .ended e)
    (hm : Moved c s l L d) : ∃ e', d = .ended e' := by
  cases hm with
  | dropped | silenced | finished | settled => exact ⟨_, rfl⟩
  | written j b hr => exact ⟨e, by rw [hd]; rfl⟩
  | lost f j b hr hj => exact ⟨e, by rw [hd]; rfl⟩
  | still l => exact ⟨e, hd⟩
  | adopted hd' | logging hd' | stopped _ hd' | interrupted _ _ _ hd' | rows _ _ _ hd' | stats _ _ hd'
  | raised _ _ hd' | logged _ _ hd' | stored _ _ hd' | handled _ _ _ hd' =>
    rw [hd] at hd'
    exact absurd hd' (by simp)

theorem Calls.keep (h : Calls s) (hend : ∀ e, s.driver = .ended e → ∃ e', t.driver = .ended e')
    (hq : ∀ i, .status i ∈ t.queue → .status i ∈ s.queue)
    (hr : ∀ i b, t.running = some (.status i, b) →
      .status i ∈ s.queue ∨ ∃ b', s.running = some (.status i, b'))
    (hc : ∀ r, .returned r ∈ t.callers → .returned r ∈ s.callers) (hl : s.log ⊆ t.log) : Calls t where
  queued i hi := by
    rcases h.queued i (hq i hi) with ⟨e, he⟩
    exact hend e he
  running i b hi := by
    rcases hr i b hi with hin | ⟨b', hin⟩
    · rcases h.queued i hin with ⟨e, he⟩
      exact hend e he
    · rcases h.running i b' hin with ⟨e, he⟩
      exact hend e he
  returned r hi := by
    rcases h.returned r (hc r hi) with ⟨hr, u, hu, hs⟩
    exact ⟨hr, u, hl hu, hs⟩

/-- Only `cancelRequested` changes. -/
theorem Calls.asked (h : Calls s) (b : Bool) : Calls { s with cancelRequested := b } :=
  h.keep (fun e he => ⟨e, he⟩) (fun _ hi => hi) (fun _ b hi => Or.inr ⟨b, hi⟩) (fun _ hr => hr)
    (fun _ hu => hu)

theorem returned_snoc {cs : List Caller} {x : Caller} {r : Option Task} (hx : x ≠ .returned r)
    (h : .returned r ∈ cs ++ [x]) : .returned r ∈ cs := by
  rcases List.mem_append.mp h with hin | hone
  · exact hin
  · exact absurd (List.mem_singleton.mp hone).symm hx

theorem returned_set {cs : List Caller} {i : Nat} {x : Caller} {r : Option Task}
    (h : .returned r ∈ cs.set i x) : x = .returned r ∨ .returned r ∈ cs := by
  rcases List.mem_or_eq_of_mem_set h with hin | heq
  · exact Or.inr hin
  · exact Or.inl heq.symm

theorem status_snoc {js : List Job} {j : Job} {i : Nat} (hj : ∀ i, j ≠ .status i)
    (h : .status i ∈ js ++ [j]) : .status i ∈ js := by
  rcases List.mem_append.mp h with hin | hone
  · exact hin
  · exact absurd (List.mem_singleton.mp hone).symm (hj i)

theorem job_not_status (p : Phase) (i : Nat) : p.job ≠ .status i := by
  cases p <;> simp [Phase.job]

/-- The driver posts a job of its own. -/
theorem Calls.await (h : Calls s) (hne : ∀ e, s.driver ≠ .ended e) (p : Phase) : Calls (s.await p) :=
  h.keep (fun e he => absurd he (hne e)) (fun _ hi => status_snoc (job_not_status p) hi)
    (fun _ b hi => Or.inr ⟨b, hi⟩) (fun _ hr => hr) (fun _ hu => hu)

theorem Calls.abandon (h : Calls s) : Calls s.abandon := by
  refine h.keep (fun e he => ⟨e, he⟩) (fun i hi => (List.mem_filter.mp hi).1) ?_ (fun _ hr => hr)
    (fun _ hu => hu)
  intro i b hi
  rcases Option.map_eq_some_iff.mp hi with ⟨⟨j, b'⟩, hrun, heq⟩
  rcases Prod.mk.inj heq with ⟨rfl, -⟩
  exact Or.inr ⟨b', hrun⟩

theorem Calls.drive (h : Calls s) (hne : ∀ e, s.driver ≠ .ended e) (d : Driver) (b : Bool) :
    Calls { s with driver := d, cancelRequested := b } :=
  h.keep (fun e he => absurd he (hne e)) (fun _ hi => hi) (fun _ b hi => Or.inr ⟨b, hi⟩)
    (fun _ hr => hr) (fun _ hu => hu)

/-- A caller posts its read: the driver has ended. -/
theorem Calls.read (h : Calls s) {e : Option Raised} (he : s.driver = .ended e) (i : Nat)
    {cs : List Caller} (hcs : ∀ r, .returned r ∈ cs → .returned r ∈ s.callers) :
    Calls { s.post (.status i) with callers := cs } where
  queued _ _ := ⟨e, he⟩
  running _ _ _ := ⟨e, he⟩
  returned r hr := h.returned r (hcs r hr)

/-- The read of a caller sees a settled line last: all the lines are logged by then. -/
theorem Calls.returns (h : Calls s) (hq : s.Queued) (hs : Settling c s.lines s.driver) {i : Nat}
    {b : Bool} (hr : s.running = some (.status i, b)) (o : Except Failure Unit) :
    Calls { s.hear (.status i) b o with callers := s.callers.set i (.returned s.log.getLast?) } := by
  rcases h.running i b hr with ⟨e, he⟩
  have hidle := hq.idle (by simp [he])
  have hlines : s.lines = s.log := by
    rw [lines_written hidle.queue, Runner.written, hr]
    exact List.append_nil _
  have hex : ∃ t ∈ s.log, t.state.settled = true := by
    rw [← hlines]
    exact hs.closed (by rw [he]; rfl)
  have hlast := settled_last hs (hlines ▸ List.prefix_refl s.log) hex
  refine ⟨fun i' hi' => ?_, fun i' b' hi' => ?_, fun r hr' => ?_⟩
  · rcases h.queued i' hi' with ⟨e', he'⟩
    exact ⟨e', by show s.driver.hear _ _ _ = _; rw [he']; rfl⟩
  · exact absurd hi' (by simp [Runner.hear])
  · rcases returned_set hr' with heq | hin
    · obtain rfl := Caller.returned.inj heq
      exact ⟨hlast, hex⟩
    · exact h.returned r hin

theorem step_calls {l : TaskLabel} (h : Calls s) (hq : s.Queued)
    (hs : Settling c s.lines s.driver) (hstep : taskStep c s l = some t) : Calls t := by
  have hend : ∀ e, s.driver = .ended e → ∃ e', t.driver = .ended e' :=
    fun e he => moved_ended he (step_moved c hstep)
  cases taskStep_moves hstep with
  | adopted hd | dropped hd | logged hd | finished hd | settled hd => exact h.drive (by simp [hd]) _ _
  | logging hd | stored hd | handled hd => exact h.await (by simp [hd]) _
  | stopped hd | rows hd | stats hd | raised hd => exact (h.asked false).await (by simp [hd]) _
  | silenced hd => exact (h.asked false).abandon.drive (by simp [Runner.abandon, hd]) _ _
  | interrupted hd => exact (h.asked false).abandon.await (by simp [Runner.abandon, hd]) _
  | begin hr hq' =>
    refine h.keep hend (fun i hi => ?_) (fun i b hi => Or.inl ?_) (fun _ hc => hc) (fun _ hu => hu)
    · rw [hq']
      exact List.mem_cons_of_mem _ hi
    · rw [hq', (Prod.mk.inj (Option.some.inj hi)).1]
      exact List.mem_cons_self
  | wrote =>
    exact h.keep hend (fun _ hi => hi) (fun _ _ hi => by cases hi) (fun _ hc => hc)
      (List.subset_append_left _ _)
  | read hr => exact h.returns hq hs hr _
  | ran | failed =>
    exact h.keep hend (fun _ hi => hi) (fun _ _ hi => by cases hi) (fun _ hc => hc) (fun _ hu => hu)
  | other =>
    exact h.keep hend (fun _ hi => status_snoc (by simp) hi) (fun _ b hi => Or.inr ⟨b, hi⟩)
      (fun _ hc => hc) (fun _ hu => hu)
  | late hd => exact h.read hd _ fun r hr => returned_snoc (by simp) hr
  | joined hd => exact h.read hd _ fun r hr => (returned_set hr).resolve_left (by simp)
  | asked =>
    exact h.keep hend (fun _ hi => hi) (fun _ b hi => Or.inr ⟨b, hi⟩)
      (fun r hr => returned_snoc (by simp) hr) (fun _ hu => hu)
  | rejected =>
    exact h.keep hend (fun _ hi => hi) (fun _ b hi => Or.inr ⟨b, hi⟩)
      (fun r hr => (returned_set hr).resolve_left (by simp)) (fun _ hu => hu)
  | closed => exact h
  | close => exact h.asked true

end Settles

theorem init_settling (c : Spawn) :
    Settling c (Runner.init c).lines (Runner.init c).driver where
  order := List.pairwise_singleton _ _
  birth _ := rfl
  closed h := absurd h (by simp [Runner.init, Driver.closed])

theorem init_calls (c : Spawn) : Calls (Runner.init c) where
  queued i hi := by simp [Runner.init] at hi
  running i b hi := by simp [Runner.init] at hi
  returned r hr := by simp [Runner.init] at hr

/-- Where every cancellation LANDS, a `cancel` that returns has read a settled state, and the last line
of the log stays settled from then on; so `wait` ends. -/
theorem cancel_settles {c : Spawn} {ls : List TaskLabel} {s : Runner}
    (hg : Guarded (taskStep c) CancelLands (Runner.init c) ls)
    (hrun : run (taskStep c) (Runner.init c) ls = some s) {r : Option Task}
    (hr : .returned r ∈ s.callers) : (∃ t, r = some t ∧ t.state.settled = true)
      ∧ ∃ t, s.log.getLast? = some t ∧ t.state.settled = true := by
  have hinv : s.Queued ∧ Settling c s.lines s.driver ∧ Calls s := by
    refine run_guarded (I := fun s => s.Queued ∧ Settling c s.lines s.driver ∧ Calls s) ?_
      ⟨init_queued c, init_settling c, init_calls c⟩ hg hrun
    rintro u l v ⟨hq, hs, hc⟩ hgu hstep
    refine ⟨step_queued c u l v hq hstep, ?_, step_calls hc hq hs hstep⟩
    exact moved_settling hq hs hgu (step_moved c hstep)
  rcases hinv with ⟨-, hs, hc⟩
  rcases hc.returned r hr with ⟨hsettled, hex⟩
  refine ⟨hsettled, settled_last hs ?_ hex⟩
  rw [lines, Runner.written, List.append_assoc]
  exact List.prefix_append _ _

/-- A shell command that is submitted. -/
def lsTask : Spawn where
  task := ⟨"t1", "sh", .pending, none, none, none, some "sh 'ls'", none, some "09:00:00", none⟩
  timeout := "3600"
  born := Or.inl rfl

/-- It is cancelled while it works: its line is logged before `cancel` reads the log. -/
def lateCancel : List TaskLabel :=
  [.enter, .begin, .finish, .resume "09:00:01", .cancel, .throw "09:00:02", .begin, .finish,
    .resume "09:00:02", .joined 0, .begin, .finish]

theorem lateCancel_lands : Guarded (taskStep lsTask) CancelLands (Runner.init lsTask) lateCancel := by
  repeat
    refine ⟨trivial, fun t ht => ?_⟩
    obtain rfl := Option.some.inj ht
  trivial

theorem cancel_settles_late : ∃ s, run (taskStep lsTask) (Runner.init lsTask) lateCancel = some s
    ∧ (∃ r, .returned r ∈ s.callers ∧ ∃ t, r = some t ∧ t.state.settled = true)
    ∧ ∃ t, s.log.getLast? = some t ∧ t.state.settled = true := by
  refine ⟨_, rfl, ?_⟩
  have h := cancel_settles lateCancel_lands rfl (List.mem_singleton.mpr rfl)
  exact ⟨⟨_, List.mem_singleton.mpr rfl, h.1⟩, h.2⟩

/-- `cancel` right after `submit` has returned: the driver is cancelled before its first step. -/
def earlyCancel : List TaskLabel :=
  [.cancel, .throw "09:00:01", .joined 0, .begin, .finish]

/-- It returns, and the only line of the task says `pending`. -/
theorem cancel_leaves_pending : ∃ s,
    run (taskStep lsTask) (Runner.init lsTask) earlyCancel = some s
    ∧ .returned (some lsTask.task) ∈ s.callers
    ∧ s.log = [lsTask.task] ∧ lsTask.task.state.settled = false :=
  ⟨_, rfl, List.mem_singleton.mpr rfl, rfl, rfl⟩

/-! ## Settled is final -/

/-- The states of a task before it settles. -/
def Spawn.life (c : Spawn) : List TaskState :=
  if c.task.state = .running then [.running] else [.pending, .running]

/-- The terminal line the driver has posted and has not heard to have failed. -/
def Driver.posted : Driver → Option Task
  | .awaiting (.finishing _) (some (.error _)) | .awaiting (.handling _) (some (.error _)) => none
  | .awaiting (.finishing t) _ | .awaiting (.handling t) _ => some t
  | _ => none

/-- No cancellation is delivered to a driver whose `running` line is still queued, or whose `done` line
is logged or on the bridge thread; and no `running` line fails to be written. -/
def CancelSpares (s : Runner) : TaskLabel → Prop
  | .throw _ =>
    match s.driver with
    | .awaiting (.logging _) _ => ownJobs s.queue = []
    | .awaiting (.finishing _) _ => ∀ t ∈ s.written, t.state.settled = false
    | _ => True
  | .fail _ => ∀ t b, s.running = some (.line t, b) → t.state ≠ .running
  | _ => True

def statesOf (L : List Task) : List TaskState := L.map Task.state

/-- The states of the lines, by where the driver is. -/
def Living (c : Spawn) (L : List Task) (d : Driver) : Prop :=
  match d with
  | .unstarted => L = [c.task]
  | .ended _ => ∃ T : TaskState, T.settled = true ∧ statesOf L <+: c.life ++ [T]
  | .awaiting (.logging t) o =>
    t.state = .running ∧ statesOf L = c.life ∧ ∀ f, o ≠ some (.error f)
  | d => (∀ t ∈ d.posted, t.state.settled = true)
    ∧ statesOf L = c.life ++ statesOf d.posted.toList

section Final

variable {c : Spawn} {s t : Runner} {L : List Task} {d : Driver}

theorem statesOf_append (a b : List Task) : statesOf (a ++ b) = statesOf a ++ statesOf b :=
  List.map_append

theorem life_unsettled {T : TaskState} (h : T ∈ c.life) : T.settled = false := by
  unfold Spawn.life at h
  split at h
  · obtain rfl := List.mem_singleton.mp h
    rfl
  · rcases List.mem_pair.mp h with rfl | rfl <;> rfl

/-- Wherever the driver is, the states are a prefix of a life with one end. -/
theorem Living.prefix (h : Living c L d) :
    ∃ T : TaskState, T.settled = true ∧ statesOf L <+: c.life ++ [T] := by
  unfold Living at h
  split at h
  · refine ⟨.done, rfl, ?_⟩
    rw [h, Spawn.life]
    split
    · next hr => exact ⟨[.done], by simp [statesOf, hr]⟩
    · next hr => exact ⟨[.running, .done], by simp [statesOf, c.born.resolve_right hr]⟩
  · exact h
  · rcases h with ⟨-, hL, -⟩
    exact ⟨.done, rfl, hL ▸ List.prefix_append _ _⟩
  · rcases h with ⟨hpost, hL⟩
    rw [hL]
    match hp : Driver.posted _ with
    | none => exact ⟨.done, rfl, by simp [statesOf]⟩
    | some u => exact ⟨u.state, hpost u hp, by simp [statesOf]⟩

theorem Living.end (h : Living c L d) {L' : List Task} (hsub : L' <+: L) (e : Option Raised) :
    Living c L' (.ended e) := by
  rcases h.prefix with ⟨T, hT, hL⟩
  exact ⟨T, hT, (hsub.map _).trans hL⟩

/-- The line the driver awaits is the last one of the queue, or nothing of its own is queued. -/
theorem written_or_queued (hq : s.Queued) {p : Phase} {o : Option (Except Failure Unit)}
    (hd : s.driver = .awaiting p o) :
    s.lines = s.written ∨ o = none ∧ ∃ u, p.job = .line u ∧ s.lines = s.written ++ [u] := by
  cases o with
  | some o => exact Or.inl (lines_written (hq.idle (by simp [hd])).queue)
  | none =>
    rcases hq.inFlight p hd with ⟨hown, -⟩ | ⟨hown, -⟩
    · have hlines : s.lines = s.written ++ linesOf [p.job] := by
        rw [lines, linesOf_of_ownJobs, hown]
      cases p with
      | persisting rs => exact Or.inl (hlines.trans (List.append_nil _))
      | logging u | finishing u | handling u => exact Or.inr ⟨rfl, u, rfl, hlines⟩
    · exact Or.inl (lines_written hown)

/-- A job of the driver's that it awaits is on the bridge thread: nothing else of it is in flight. -/
theorem lost_awaited (hq : s.Queued) {p : Phase} (hd : s.driver = .awaiting p none) {j : Job}
    (hr : s.running = some (j, true)) (hj : j.own = true) :
    j = p.job ∧ s.lines = s.log ++ linesOf [p.job] ∧ linesOf s.queue = [] := by
  rcases hq.inFlight p hd with ⟨-, hno⟩ | ⟨hown, hrun⟩
  · rw [hno j hr] at hj
    exact absurd hj (by simp)
  · obtain rfl := (Prod.mk.inj (Option.some.inj (hr.symm.trans hrun))).1
    refine ⟨rfl, ?_, linesOf_nil hown⟩
    rw [lines_written hown, Runner.written, hr]
    rfl

/-- The driver posts a terminal line over the states of a life that has not ended. -/
theorem Living.settle {u : Task} (hL : statesOf L = c.life) (hu : u.state.settled = true) :
    Living c (L ++ [u]) (.awaiting (.handling u) none) := by
  refine ⟨fun t ht => ?_, ?_⟩
  · obtain rfl := Option.some.inj ht
    exact hu
  · rw [statesOf_append, hL]; rfl

/-- Without its end a settled life is unsettled again. -/
theorem settled_off {u : Task} (h : statesOf (L ++ [u]) = c.life ++ [u.state]) :
    statesOf L = c.life := by
  rw [statesOf_append] at h
  exact (List.append_inj' h rfl).1

theorem Living.finish {u : Task} (hL : statesOf L = c.life) (hu : u.state.settled = true) :
    Living c (L ++ [u]) (.awaiting (.finishing u) none) := by
  refine ⟨fun t ht => ?_, ?_⟩
  · obtain rfl := Option.some.inj ht
    exact hu
  · rw [statesOf_append, hL]; rfl

/-- A cancellation that spares what is being written finds the life logged, and no end of it. -/
theorem interrupted_living (hq : s.Queued) (h : Living c s.lines s.driver) {now : String}
    (hg : CancelSpares s (.throw now)) {p : Phase} {o : Option (Except Failure Unit)}
    (hd : s.driver = .awaiting p o) (hp : ∀ t, p ≠ .handling t) : statesOf s.written = c.life := by
  simp only [CancelSpares, hd] at hg
  rw [hd] at h
  match p with
  | .logging u =>
    rw [← lines_written hg]
    exact h.2.1
  | .persisting rs =>
    have hL : statesOf s.lines = c.life := h.2.trans (List.append_nil _)
    rcases written_or_queued hq hd with heq | ⟨-, u, hu, -⟩
    · exact heq ▸ hL
    · exact absurd hu (by simp [Phase.job])
  | .handling u => exact absurd rfl (hp u)
  | .finishing u =>
    have hfree : ∀ x, x.settled = true → x ∉ statesOf s.written := by
      intro x hx hmem
      rcases List.mem_map.mp hmem with ⟨t, ht, rfl⟩
      rw [hg t ht] at hx
      exact absurd hx (by simp)
    rcases written_or_queued hq hd with heq | ⟨rfl, v, hv, heq⟩
    · -- nothing is queued: the line has failed, or it is among what is written
      match o with
      | some (.error f) => exact heq ▸ h.2.trans (List.append_nil _)
      | none | some (.ok ()) =>
        have hu := h.1 u rfl
        refine absurd ?_ (hfree u.state hu)
        rw [← heq, h.2]
        exact List.mem_append_right _ (List.mem_singleton.mpr rfl)
    · obtain rfl : u = v := by simpa [Phase.job] using hv
      exact settled_off (heq ▸ h.2)

/-- A job of the driver's fails: the line it would have written is not a `running` one. -/
theorem lost_living (hq : s.Queued) (h : Living c s.lines s.driver) {f : Failure}
    (hg : CancelSpares s (.fail f)) {j : Job} {b : Bool} (hr : s.running = some (j, b))
    (hj : j.own = true) :
    Living c (s.log ++ linesOf s.queue) (s.driver.hear j b (.error f)) := by
  cases b with
  | true =>
    have hd : ∃ p, s.driver = .awaiting p none := by
      by_contra hno
      have hforeign := (hq.idle fun p hp => hno ⟨p, hp⟩).running j hr
      rw [hj] at hforeign
      exact absurd hforeign (by simp)
    rcases hd with ⟨p, hd⟩
    rcases lost_awaited hq hd hr hj with ⟨rfl, hlines, hnil⟩
    rw [hd] at h ⊢
    rw [hlines] at h
    rw [hnil, List.append_nil]
    cases p with
    | logging u => exact absurd h.1 (hg u true hr)
    | persisting rs =>
      refine ⟨by simp [Driver.posted], ?_⟩
      have hL := h.2
      rwa [show linesOf [Phase.job (.persisting rs)] = [] from rfl, List.append_nil] at hL
    | finishing u | handling u =>
      exact ⟨by simp [Driver.posted], (settled_off h.2).trans (List.append_nil _).symm⟩
  | false =>
    rcases hq.orphan j hr hj with ⟨u, hd, hown⟩ | ⟨e, hd⟩
    · have hqueue : linesOf s.queue = [u] := by
        rw [linesOf_of_ownJobs, hown]; rfl
      have hwritten : s.written = s.log ++ linesOf [j] := by
        rw [Runner.written, hr]; rfl
      rw [hd] at h ⊢
      rw [lines, hqueue, hwritten] at h
      have hL := settled_off h.2
      -- what is abandoned on the thread is the last of the life, or no line at all
      have hnone : linesOf [j] = [] := by
        cases j with
        | line v =>
          have hlast : v.state = .running := by
            have heq := congrArg List.getLast? hL
            rw [statesOf_append] at heq
            have hrun : c.life.getLast? = some .running := by
              unfold Spawn.life
              split <;> rfl
            rw [hrun, show statesOf (linesOf [.line v]) = [v.state] from rfl,
              List.getLast?_concat] at heq
            exact Option.some.inj heq
          exact absurd hlast (hg v false hr)
        | persist _ | status _ | other => rfl
      rw [hnone, List.append_nil] at h
      rw [hqueue]
      exact h
    · have hidle := hq.idle (by simp [hd])
      rw [linesOf_nil hidle.queue, List.append_nil]
      rw [hd] at h ⊢
      refine h.end ?_ e
      rw [lines, Runner.written, List.append_assoc]
      exact List.prefix_append _ _

theorem moved_living {l : TaskLabel} (hq : s.Queued) (h : Living c s.lines s.driver)
    (hg : CancelSpares s l) (hm : Moved c s l L d) : Living c L d := by
  cases hm with
  | adopted hd hr =>
    rw [hd] at h
    refine ⟨by simp [Driver.posted], ?_⟩
    rw [show s.lines = [c.task] from h, Spawn.life, if_pos hr]
    simp [statesOf, hr, Driver.posted]
  | logging hd hr =>
    rw [hd] at h
    refine ⟨rfl, ?_, by simp⟩
    rw [show s.lines = [c.task] from h, Spawn.life, if_neg hr]
    simp [statesOf, c.born.resolve_right hr, Spawn.current]
  | dropped now hd => exact h.end (List.prefix_refl _) _
  | stopped now hd =>
    rw [hd] at h
    exact Living.settle (h.2.trans (List.append_nil _)) (settle_settled _ _ _)
  | silenced now u o hd => exact h.end (List.prefix_append _ _) _
  | interrupted now p o hd hp =>
    exact Living.settle (interrupted_living hq h hg hd hp) (settle_settled _ _ _)
  | rows now r rs hd =>
    rw [hd] at h
    exact h
  | stats now r hd =>
    rw [hd] at h
    exact Living.finish (h.2.trans (List.append_nil _)) rfl
  | raised now e hd =>
    rw [hd] at h
    exact Living.settle (h.2.trans (List.append_nil _)) (settle_settled _ _ _)
  | logged now u hd =>
    rw [hd] at h
    exact ⟨by simp [Driver.posted], h.2.1.trans (List.append_nil _).symm⟩
  | stored now rs hd =>
    rw [hd] at h
    exact Living.finish (h.2.trans (List.append_nil _)) rfl
  | finished now u hd => exact h.end (List.prefix_refl _) _
  | settled now u o e hd => exact h.end (List.prefix_refl _) _
  | handled now p f hd hp =>
    rw [hd] at h
    match p with
    | .logging u => exact absurd rfl (h.2.2 f)
    | .handling u => exact absurd rfl (hp u)
    | .persisting rs | .finishing u =>
      exact Living.settle (h.2.trans (List.append_nil _)) (settle_settled _ _ _)
  | written j b hr =>
    unfold Driver.hear
    split
    · next p hd =>
      rw [hd] at h
      split
      · match p with
        | .logging u => exact ⟨h.1, h.2.1, by simp⟩
        | .persisting rs | .finishing u | .handling u => exact h
      · rw [hd]
        exact h
    · exact h
  | lost f j b hr hj => exact lost_living hq h hg hr hj
  | still l => exact h

/-- The log is append-only. -/
theorem step_log {l : TaskLabel} (hstep : taskStep c s l = some t) : s.log <+: t.log := by
  cases taskStep_moves hstep with
  | wrote => exact List.prefix_append _ _
  | _ => exact List.prefix_refl _

theorem run_log {ls : List TaskLabel} (hrun : run (taskStep c) s ls = some t) : s.log <+: t.log :=
  run_invariant (I := fun u => s.log <+: u.log) (fun _ _ _ hu hstep => hu.trans (step_log hstep))
    (List.prefix_refl _) hrun

theorem run_living {ls : List TaskLabel} (hg : Guarded (taskStep c) CancelSpares (Runner.init c) ls)
    (hrun : run (taskStep c) (Runner.init c) ls = some s) : Living c s.lines s.driver := by
  have hinv : s.Queued ∧ Living c s.lines s.driver := by
    refine run_guarded (I := fun s => s.Queued ∧ Living c s.lines s.driver) ?_
      ⟨init_queued c, show Living c [c.task] .unstarted from rfl⟩ hg hrun
    rintro u l v ⟨hq, hL⟩ hgu hstep
    exact ⟨step_queued c u l v hq hstep, moved_living hq hL hgu (step_moved c hstep)⟩
  exact hinv.2

/-- A settled line is the whole of a life. -/
theorem life_settled {T : TaskState} {log : List Task} (hlog : statesOf log <+: c.life ++ [T])
    {u : Task} (hu : u ∈ log) (hs : u.state.settled = true) :
    log.length = c.life.length + 1 := by
  have hle : log.length ≤ c.life.length + 1 := by simpa [statesOf] using hlog.length_le
  have hnot : ¬ log.length ≤ c.life.length := by
    intro hshort
    have hpre : statesOf log <+: c.life :=
      List.prefix_of_prefix_length_le hlog (List.prefix_append _ _) (by simpa [statesOf] using hshort)
    have hfalse := life_unsettled (hpre.subset (List.mem_map_of_mem hu))
    rw [hs] at hfalse
    exact absurd hfalse (by simp)
  omega

end Final

/-- Where every cancellation SPARES what is being written, the states of the log are a prefix of
`pending, running, T` (of `running, T` where the task was adopted) with a settled `T`; and once a
settled line is there, the log never changes again. -/
theorem settled_is_final {c : Spawn} {ls more : List TaskLabel} {s t : Runner}
    (hg : Guarded (taskStep c) CancelSpares (Runner.init c) (ls ++ more))
    (hs : run (taskStep c) (Runner.init c) ls = some s)
    (ht : run (taskStep c) s more = some t) :
    (∃ T : TaskState, T.settled = true ∧ statesOf s.log <+: c.life ++ [T])
      ∧ ((∃ u ∈ s.log, u.state.settled = true) → t.log = s.log) := by
  have hall : run (taskStep c) (Runner.init c) (ls ++ more) = some t := by
    rw [run_append, hs]
    exact ht
  have hlog : ∀ u : Runner, Living c u.lines u.driver →
      ∃ T : TaskState, T.settled = true ∧ statesOf u.log <+: c.life ++ [T] := by
    intro u hu
    rcases hu.prefix with ⟨T, hT, hL⟩
    refine ⟨T, hT, List.IsPrefix.trans ?_ hL⟩
    rw [lines, Runner.written, List.append_assoc]
    exact (List.prefix_append _ _).map _
  refine ⟨hlog s (run_living hg.append hs), ?_⟩
  rintro ⟨u, hu, hsettled⟩
  rcases hlog s (run_living hg.append hs) with ⟨T, -, hT⟩
  rcases hlog t (run_living hg hall) with ⟨T', -, hT'⟩
  have hgrown := run_log ht
  have hlen := life_settled hT hu hsettled
  have hlen' := life_settled hT' (hgrown.subset hu) hsettled
  exact (hgrown.eq_of_length (by omega)).symm

theorem lateCancel_spares : Guarded (taskStep lsTask) CancelSpares (Runner.init lsTask)
    (lateCancel ++ [.cancel, .begin, .finish]) := by
  repeat
    refine ⟨trivial, fun t ht => ?_⟩
    obtain rfl := Option.some.inj ht
  trivial

/-- The cancelled command, and a second `cancel` after its end. -/
theorem settled_is_final_late : ∃ s t,
    run (taskStep lsTask) (Runner.init lsTask) lateCancel = some s
    ∧ run (taskStep lsTask) s [.cancel, .begin, .finish] = some t
    ∧ statesOf s.log = [.pending, .running, .cancelled] ∧ t.log = s.log := by
  refine ⟨_, _, rfl, rfl, rfl, ?_⟩
  exact (settled_is_final lateCancel_spares rfl rfl).2 ⟨_, List.mem_of_getLast? rfl, rfl⟩

/-- The command has ended and its `done` line is on the bridge thread when the cancellation arrives: it
is written all the same, and the cancelled line follows it. -/
def overlap : List TaskLabel :=
  [.enter, .begin, .finish, .resume "09:00:01", .work "09:00:02" (.ok .null), .begin, .cancel,
    .throw "09:00:03", .finish, .begin, .finish]

/-- The status is `done`, and then it is `cancelled`. -/
theorem done_then_cancelled : ∃ s,
    run (taskStep lsTask) (Runner.init lsTask) overlap = some s
    ∧ statesOf s.log = [.pending, .running, .done, .cancelled] := ⟨_, rfl, rfl⟩

end Seekbase
