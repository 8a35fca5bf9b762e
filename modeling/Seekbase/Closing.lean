/-
# Seekbase.Closing — `Seekbase.close`, one duty after another, beside everything it stops.

`close` marks itself done and then stops the streams, cancels the tasks, stops the write worker, and
closes the read pool, the connection and the bridge, in this order.  It awaits the streams, the tasks and
the worker, and these run on meanwhile: a stream may die before its turn, and one that is told to stop
still sweeps its files once more, which may raise.  What a task or the worker raises is suppressed; what
a stream raises is not.

* `Duty`, `State.duties`  — what is to be stopped or closed, in the order of `close`;
* `step`                  — `close`, and the ends of what it stops;
* `Tidy`                  — the duties behind `close` are done, and the bridge is the last;
* `close_releases_iff`    — everything is stopped and closed when `close` is over iff no stream that it
                            awaits raises.

Nothing new is started while `close` runs: a stream or a task that is, is nobody's duty.
-/
import Mathlib.Data.List.Nodup
import Mathlib.Data.List.Range
import Seekbase.Lib.Run

namespace Seekbase.Closing

open Transition

/-! ## The port -/

/-- How a stream's task ends. -/
inductive Ending (ε : Type) where
  | clean
  | cancelled
  | raised (e : ε)

/-- The loop of a stream that was not told to stop is left by an exception alone. -/
def Ending.leaves {ε : Type} (stop : Bool) : Ending ε → Bool
  | .clean => stop
  | _ => true

structure StreamTask (ε : Type) where
  /-- The stop event is set. -/
  stop : Bool
  ended : Option (Ending ε)

/-- What `close` has to do. -/
inductive Duty where
  | stream (i : Nat)
  | task (j : Nat)
  | writer
  | reads
  | conn
  | bridge
  deriving DecidableEq

/-- Where `close` is. -/
inductive Closer (ε : Type) where
  | idle
  | at (todo : List Duty)
  | awaiting (d : Duty) (todo : List Duty)
  /-- Returned, or raised. -/
  | over (raised : Option ε)

structure State (ε : Type) where
  streams : List (StreamTask ε)
  /-- Whether each background task has ended. -/
  tasks : List Bool
  workerStop : Bool
  workerEnded : Bool
  readsClosed : Bool
  connClosed : Bool
  bridgeClosed : Bool
  /-- `_closed`. -/
  closed : Bool
  closer : Closer ε

variable {ε : Type}

/-- An open port, with some streams and some tasks. -/
def State.init (streams : List (StreamTask ε)) (tasks : List Bool) : State ε :=
  ⟨streams, tasks, false, false, false, false, false, false, .idle⟩

namespace State

variable (s : State ε)

/-- The stream, the task or the worker has ended; the pool, the connection or the bridge is closed. -/
def released : Duty → Bool
  | .stream i => (s.streams[i]?).all fun t => t.ended.isSome
  | .task j => (s.tasks[j]?).getD true
  | .writer => s.workerEnded
  | .reads => s.readsClosed
  | .conn => s.connClosed
  | .bridge => s.bridgeClosed

/-- The order of `LocalExecutor.close`. -/
def duties : List Duty :=
  (List.range s.streams.length).map .stream ++ (List.range s.tasks.length).map .task
    ++ [.writer, .reads, .conn] ++ [.bridge]

/-- What awaiting it raises: `suppress` takes a cancellation, and a task's or the worker's exception. -/
def raisedBy : Duty → Option ε
  | .stream i =>
    match s.streams[i]? with
    | some ⟨_, some (.raised e)⟩ => some e
    | _ => none
  | _ => none

/-- One duty: what runs is told to stop and awaited, what has ended is passed over. -/
def perform (d : Duty) (todo : List Duty) : State ε :=
  match d with
  | .stream i =>
    if s.released d then { s with closer := .at todo }
    else { s with
      streams := s.streams.modify i fun t => { t with stop := true }
      closer := .awaiting d todo }
  | .task _ => if s.released d then { s with closer := .at todo } else { s with closer := .awaiting d todo }
  | .writer => { s with workerStop := true, closer := .awaiting d todo }
  | .reads => { s with readsClosed := true, closer := .at todo }
  | .conn => { s with connClosed := true, closer := .at todo }
  | .bridge => { s with bridgeClosed := true, closer := .at todo }

end State

inductive Label (ε : Type) where
  | close
  /-- `close` goes on with its next duty, or comes back from an await. -/
  | go
  | resume
  /-- Somebody else stops a stream. -/
  | stop (i : Nat)
  | streamEnds (i : Nat) (e : Ending ε)
  | taskEnds (j : Nat)
  | workerEnds

def step (s : State ε) : Label ε → Option (State ε)
  -- a second call returns at once
  | .close => if s.closed then some s else some { s with closed := true, closer := .at s.duties }
  | .go =>
    match s.closer with
    | .at [] => some { s with closer := .over none }
    | .at (d :: todo) => some (s.perform d todo)
    | _ => none
  | .resume =>
    match s.closer with
    | .awaiting d todo =>
      if s.released d then
        match s.raisedBy d with
        | some e => some { s with closer := .over (some e) }
        | none => some { s with closer := .at todo }
      else none
    | _ => none
  | .stop i => some { s with streams := s.streams.modify i fun t => { t with stop := true } }
  | .streamEnds i e =>
    match s.streams[i]? with
    | some t =>
      if t.ended.isNone && e.leaves t.stop then
        some { s with streams := s.streams.set i { t with ended := some e } }
      else none
    | none => none
  | .taskEnds j =>
    match s.tasks[j]? with
    | some false => some { s with tasks := s.tasks.set j true }
    | _ => none
  | .workerEnds =>
    if s.workerStop && !s.workerEnded then some { s with workerEnded := true } else none

/-- No stream, no task and no worker runs, and the pool, the connection and the bridge are closed. -/
def AllReleased (s : State ε) : Prop := ∀ d ∈ s.duties, s.released d = true

/-- No stream raises while `close` awaits it. -/
def Survives (s : State ε) : Label ε → Prop
  | .streamEnds i (.raised _) => ∀ todo, s.closer ≠ .awaiting (.stream i) todo
  | _ => True

/-! ## What a step keeps -/

section Steps

variable {s t : State ε}

/-- Nothing that is released is taken up again, and the duties are the same. -/
structure Grows (s t : State ε) : Prop where
  duties : t.duties = s.duties
  released : ∀ d, s.released d = true → t.released d = true

theorem Grows.refl (s : State ε) : Grows s s := ⟨rfl, fun _ h => h⟩

/-- A stream's flag is raised. -/
theorem grows_stop (s : State ε) (i : Nat) :
    Grows s { s with streams := s.streams.modify i fun t => { t with stop := true } } where
  duties := by simp only [State.duties, List.length_modify]
  released d hd := by
    match d with
    | .stream k =>
      simp only [State.released, List.getElem?_modify] at hd ⊢
      by_cases hk : i = k
      · subst hk
        cases hx : s.streams[i]? with
        | none => simp
        | some x => simpa [hx] using hd
      · simpa [hk] using hd
    | .task _ | .writer | .reads | .conn | .bridge => exact hd

/-- A stream ends. -/
theorem grows_ends (s : State ε) (i : Nat) (x : StreamTask ε) (e : Ending ε) :
    Grows s { s with streams := s.streams.set i { x with ended := some e } } where
  duties := by simp only [State.duties, List.length_set]
  released d hd := by
    match d with
    | .stream k =>
      simp only [State.released, List.getElem?_set] at hd ⊢
      by_cases hk : i = k
      · subst hk
        by_cases hlt : i < s.streams.length <;> simp [hlt]
      · simpa [hk] using hd
    | .task _ | .writer | .reads | .conn | .bridge => exact hd

theorem grows_task (s : State ε) (j : Nat) : Grows s { s with tasks := s.tasks.set j true } where
  duties := by simp only [State.duties, List.length_set]
  released d hd := by
    match d with
    | .task k =>
      simp only [State.released, List.getElem?_set] at hd ⊢
      by_cases hk : j = k
      · subst hk
        by_cases hlt : j < s.tasks.length <;> simp [hlt]
      · simpa [hk] using hd
    | .stream _ | .writer | .reads | .conn | .bridge => exact hd

/-- One duty changes nothing that is done. -/
theorem grows_perform (s : State ε) (d : Duty) (todo : List Duty) : Grows s (s.perform d todo) := by
  match d with
  | .stream i =>
    simp only [State.perform]
    split
    · exact ⟨rfl, fun _ h => h⟩
    · exact ⟨(grows_stop s i).duties, fun d h => (grows_stop s i).released d h⟩
  | .task j =>
    simp only [State.perform]
    split
    · exact ⟨rfl, fun _ h => h⟩
    · exact ⟨rfl, fun _ h => h⟩
  | .writer => exact ⟨rfl, fun d h => h⟩
  | .reads =>
    refine ⟨rfl, fun d h => ?_⟩
    match d with
    | .reads => rfl
    | .stream _ | .task _ | .writer | .conn | .bridge => exact h
  | .conn =>
    refine ⟨rfl, fun d h => ?_⟩
    match d with
    | .conn => rfl
    | .stream _ | .task _ | .writer | .reads | .bridge => exact h
  | .bridge =>
    refine ⟨rfl, fun d h => ?_⟩
    match d with
    | .bridge => rfl
    | .stream _ | .task _ | .writer | .reads | .conn => exact h

/-- What a step does, with what it takes to be enabled. -/
inductive Moves (s : State ε) : Label ε → State ε → Prop
  | again (hc : s.closed = true) : Moves s .close s
  | close (hc : s.closed ≠ true) :
    Moves s .close { s with closed := true, closer := .at s.duties }
  | done (hc : s.closer = .at []) : Moves s .go { s with closer := .over none }
  | go {d : Duty} {todo : List Duty} (hc : s.closer = .at (d :: todo)) :
    Moves s .go (s.perform d todo)
  | raise {d : Duty} {todo : List Duty} {e : ε} (hc : s.closer = .awaiting d todo)
    (he : s.raisedBy d = some e) : Moves s .resume { s with closer := .over (some e) }
  | resume {d : Duty} {todo : List Duty} (hc : s.closer = .awaiting d todo)
    (hr : s.released d = true) (hno : s.raisedBy d = none) :
    Moves s .resume { s with closer := .at todo }
  | stop (i : Nat) : Moves s (.stop i)
      { s with streams := s.streams.modify i fun t => { t with stop := true } }
  | streamEnds {i : Nat} {x : StreamTask ε} {e : Ending ε} (hx : s.streams[i]? = some x)
    (hends : (x.ended.isNone && e.leaves x.stop) = true) :
    Moves s (.streamEnds i e) { s with streams := s.streams.set i { x with ended := some e } }
  | taskEnds (j : Nat) : Moves s (.taskEnds j) { s with tasks := s.tasks.set j true }
  | workerEnds : Moves s .workerEnds { s with workerEnded := true }

theorem step_moves {l : Label ε} (hstep : step s l = some t) : Moves s l t := by
  cases l with
  | close =>
    simp only [step] at hstep
    split at hstep
    · next hc => exact Option.some.inj hstep ▸ .again hc
    · next hc => exact Option.some.inj hstep ▸ .close hc
  | go =>
    simp only [step] at hstep
    split at hstep
    · next hc => exact Option.some.inj hstep ▸ .done hc
    · next d todo hc => exact Option.some.inj hstep ▸ .go hc
    · cases hstep
  | resume =>
    simp only [step] at hstep
    split at hstep
    · next d todo hc =>
      split at hstep
      · next hr =>
        split at hstep
        · next e he => exact Option.some.inj hstep ▸ .raise hc he
        · next hno => exact Option.some.inj hstep ▸ .resume hc hr hno
      · cases hstep
    · cases hstep
  | stop i => exact Option.some.inj hstep ▸ .stop i
  | streamEnds i e =>
    simp only [step] at hstep
    split at hstep
    · next x hx =>
      split at hstep
      · next hends => exact Option.some.inj hstep ▸ .streamEnds hx hends
      · cases hstep
    · cases hstep
  | taskEnds j =>
    simp only [step] at hstep
    split at hstep
    · exact Option.some.inj hstep ▸ .taskEnds j
    · cases hstep
  | workerEnds =>
    simp only [step] at hstep
    split at hstep
    · exact Option.some.inj hstep ▸ .workerEnds
    · cases hstep

theorem step_grows {l : Label ε} (hstep : step s l = some t) : Grows s t := by
  cases step_moves hstep with
  | again | close | done | raise | resume => exact ⟨rfl, fun _ h => h⟩
  | go hc => exact grows_perform s _ _
  | stop i => exact grows_stop s i
  | streamEnds hx hends => exact grows_ends s _ _ _
  | taskEnds j => exact grows_task s j
  | workerEnds =>
    refine ⟨rfl, fun d h => ?_⟩
    cases d with
    | writer => rfl
    | stream | task | reads | conn | bridge => exact h

/-! ## Where `close` is -/

/-- The duties that `close` still has. -/
def State.pending (s : State ε) : Option (List Duty) :=
  match s.closer with
  | .idle => none
  | .at todo => some todo
  | .awaiting d todo => some (d :: todo)
  | .over none => some []
  | .over (some _) => none

structure Tidy (s : State ε) : Prop where
  fresh : s.closed = false → s.closer = .idle
  /-- What `close` has behind it is released. -/
  behind : ∀ todo, s.pending = some todo →
    ∃ done, s.duties = done ++ todo ∧ ∀ d ∈ done, s.released d = true
  /-- The bridge is closed last. -/
  last : s.bridgeClosed = true → s.pending = some []

theorem bridge_last {done todo : List Duty} (h : s.duties = done ++ .bridge :: todo) : todo = [] := by
  rcases List.eq_nil_or_concat todo with hnil | ⟨init, x, rfl⟩
  · exact hnil
  · -- the bridge is among the duties once
    have hcut : (List.range s.streams.length).map Duty.stream ++ (List.range s.tasks.length).map Duty.task
        ++ [.writer, .reads, .conn] = done ++ .bridge :: init := by
      have heq : State.duties s = (done ++ .bridge :: init) ++ [x] := by rw [h]; simp
      exact (List.append_inj' heq rfl).1
    have hmem : Duty.bridge ∈ (List.range s.streams.length).map Duty.stream
        ++ (List.range s.tasks.length).map Duty.task ++ [.writer, .reads, .conn] := by
      rw [hcut]; simp
    simp at hmem

/-- A step of somebody else. -/
theorem Tidy.beside (h : Tidy s) (hg : Grows s t) (hclosed : t.closed = s.closed)
    (hcloser : t.closer = s.closer) (hbridge : t.bridgeClosed = s.bridgeClosed) : Tidy t := by
  have hpending : t.pending = s.pending := by rw [State.pending, State.pending, hcloser]
  refine ⟨fun hc => ?_, fun todo htodo => ?_, fun hb => ?_⟩
  · rw [hcloser]
    exact h.fresh (hclosed ▸ hc)
  · obtain ⟨done, hduties, hdone⟩ := h.behind todo (hpending ▸ htodo)
    exact ⟨done, hg.duties.trans hduties, fun d hd => hg.released d (hdone d hd)⟩
  · rw [hpending]
    exact h.last (hbridge ▸ hb)

/-- `close` has done its next duty. -/
theorem Tidy.advance (h : Tidy s) (hg : Grows s t) {d : Duty} {todo : List Duty}
    (hs : s.pending = some (d :: todo)) (ht : t.closer = .at todo) (hclosed : t.closed = s.closed)
    (hd : t.released d = true) (hlast : t.bridgeClosed = true → todo = []) : Tidy t := by
  have hpending : t.pending = some todo := by rw [State.pending, ht]
  refine ⟨fun hc => ?_, fun rest hrest => ?_, fun hb => ?_⟩
  · have hidle := h.fresh (hclosed ▸ hc)
    rw [State.pending, hidle] at hs
    exact absurd hs (by simp)
  · obtain rfl := Option.some.inj (hpending.symm.trans hrest)
    obtain ⟨done, hduties, hdone⟩ := h.behind _ hs
    refine ⟨done ++ [d], ?_, fun x hx => ?_⟩
    · rw [hg.duties, hduties, List.append_assoc]
      rfl
    · rcases List.mem_append.mp hx with hx | hx
      · exact hg.released x (hdone x hx)
      · obtain rfl := List.mem_singleton.mp hx
        exact hd
  · rw [hpending, hlast hb]

/-- `close` waits for its next duty. -/
theorem Tidy.await (h : Tidy s) (hg : Grows s t) {d : Duty} {todo : List Duty}
    (hs : s.pending = some (d :: todo)) (ht : t.closer = .awaiting d todo)
    (hclosed : t.closed = s.closed) (hbridge : t.bridgeClosed = s.bridgeClosed) : Tidy t := by
  have hpending : t.pending = s.pending := by rw [hs, State.pending, ht]
  refine ⟨fun hc => ?_, fun rest hrest => ?_, fun hb => ?_⟩
  · have hidle := h.fresh (hclosed ▸ hc)
    rw [State.pending, hidle] at hs
    exact absurd hs (by simp)
  · obtain ⟨done, hduties, hdone⟩ := h.behind rest (hpending ▸ hrest)
    exact ⟨done, hg.duties.trans hduties, fun x hx => hg.released x (hdone x hx)⟩
  · rw [hpending]
    exact h.last (hbridge ▸ hb)

theorem perform_tidy (h : Tidy s) {d : Duty} {todo : List Duty} (hc : s.closer = .at (d :: todo)) :
    Tidy (s.perform d todo) := by
  have hg := grows_perform s d todo
  have hs : s.pending = some (d :: todo) := by rw [State.pending, hc]
  have hopen : s.bridgeClosed ≠ true := fun hb => by
    have hnil := (h.last hb).symm.trans hs
    exact absurd hnil (by simp)
  match d with
  | .stream i =>
    simp only [State.perform] at hg ⊢
    split at hg
    · next hr =>
      rw [if_pos hr]
      exact h.advance hg hs rfl rfl hr fun hb => absurd hb hopen
    · next hr =>
      rw [if_neg hr]
      exact h.await hg hs rfl rfl rfl
  | .task j =>
    simp only [State.perform] at hg ⊢
    split at hg
    · next hr =>
      rw [if_pos hr]
      exact h.advance hg hs rfl rfl hr fun hb => absurd hb hopen
    · next hr =>
      rw [if_neg hr]
      exact h.await hg hs rfl rfl rfl
  | .writer => exact h.await hg hs rfl rfl rfl
  | .reads => exact h.advance hg hs rfl rfl rfl fun hb => absurd hb hopen
  | .conn => exact h.advance hg hs rfl rfl rfl fun hb => absurd hb hopen
  | .bridge =>
    obtain ⟨done, hduties, -⟩ := h.behind _ hs
    exact h.advance hg hs rfl rfl rfl fun _ => bridge_last hduties

theorem step_tidy (s : State ε) (l : Label ε) (t : State ε) (h : Tidy s) (hstep : step s l = some t) :
    Tidy t := by
  have hg := step_grows hstep
  -- where `close` awaits, the bridge is still to be closed
  have hopen : ∀ {d todo}, s.closer = .awaiting d todo → s.bridgeClosed ≠ true := fun hc hb => by
    have hnone := h.last hb
    rw [State.pending, hc] at hnone
    cases hnone
  cases step_moves hstep with
  | again => exact h
  | close hc =>
    refine ⟨fun hc => absurd hc (by simp), fun todo htodo => ?_, fun hb => ?_⟩
    · obtain rfl := Option.some.inj htodo
      exact ⟨[], rfl, fun d hd => absurd hd (by simp)⟩
    · have hidle := h.fresh (by simpa using hc)
      have hnone := h.last hb
      rw [State.pending, hidle] at hnone
      exact absurd hnone (by simp)
  | done hc =>
    have hs : s.pending = some [] := by rw [State.pending, hc]
    refine ⟨fun hf => ?_, fun todo htodo => ?_, fun _ => rfl⟩
    · rw [h.fresh hf] at hc
      exact absurd hc (by simp)
    · exact h.behind todo (hs.trans htodo)
  | go hc => exact perform_tidy h hc
  | raise hc he =>
    refine ⟨fun hf => ?_, fun rest hrest => absurd hrest (by simp [State.pending]),
      fun hb => absurd hb (hopen hc)⟩
    rw [h.fresh hf] at hc
    exact absurd hc (by simp)
  | @resume d todo hc hr hno =>
    have hs : s.pending = some (d :: todo) := by rw [State.pending, hc]
    exact h.advance hg hs rfl rfl hr fun hb => absurd hb (hopen hc)
  | stop | streamEnds | taskEnds | workerEnds => exact h.beside hg rfl rfl rfl

/-! ## What `close` raises -/

/-- `close` has raised, or will when it comes back from its await. -/
def Raising (s : State ε) : Prop :=
  (∃ e, s.closer = .over (some e)) ∨ ∃ d todo e, s.closer = .awaiting d todo ∧ s.raisedBy d = some e

theorem raisedBy_released {d : Duty} {e : ε} (h : s.raisedBy d = some e) : s.released d = true := by
  match d with
  | .stream i =>
    simp only [State.raisedBy] at h
    split at h
    · next x hx => simp [State.released, hx]
    · exact absurd h (by simp)
  | .task _ | .writer | .reads | .conn | .bridge => exact absurd h (by simp [State.raisedBy])

theorem raising_iff_of_awaiting {d : Duty} {todo : List Duty} (hc : s.closer = .awaiting d todo) :
    Raising s ↔ ∃ e, s.raisedBy d = some e := by
  constructor
  · rintro (⟨e, he⟩ | ⟨d', todo', e, he, hr⟩)
    · exact absurd (hc.symm.trans he) (by simp)
    · obtain ⟨rfl, -⟩ := Closer.awaiting.inj (hc.symm.trans he)
      exact ⟨e, hr⟩
  · rintro ⟨e, he⟩
    exact Or.inr ⟨d, todo, e, hc, he⟩

theorem not_raising_of {c : Closer ε} (hc : s.closer = c) (hover : ∀ e, c ≠ .over (some e))
    (hawait : ∀ d todo, c ≠ .awaiting d todo) : ¬ Raising s := by
  rintro (⟨e, he⟩ | ⟨d, todo, e, he, -⟩)
  · exact hover e (hc.symm.trans he)
  · exact hawait d todo (hc.symm.trans he)

/-- Where the closer stays and awaits what raises as before. -/
theorem raising_congr (hc : t.closer = s.closer) (hr : ∀ d todo, s.closer = .awaiting d todo →
    t.raisedBy d = s.raisedBy d) : Raising t ↔ Raising s := by
  unfold Raising
  rw [hc]
  refine or_congr Iff.rfl ⟨?_, ?_⟩
  · rintro ⟨d, todo, e, he, h⟩
    exact ⟨d, todo, e, he, hr d todo he ▸ h⟩
  · rintro ⟨d, todo, e, he, h⟩
    exact ⟨d, todo, e, he, (hr d todo he).trans h⟩

theorem raisedBy_stop (s : State ε) (i : Nat) (d : Duty) :
    State.raisedBy { s with streams := s.streams.modify i fun t => { t with stop := true } } d
      = s.raisedBy d := by
  match d with
  | .stream k =>
    simp only [State.raisedBy, List.getElem?_modify]
    match s.streams[k]? with
    | none => rfl
    | some ⟨stop, none⟩ | some ⟨stop, some .clean⟩ | some ⟨stop, some .cancelled⟩
    | some ⟨stop, some (.raised _)⟩ => by_cases hk : i = k <;> simp [hk]
  | .task _ | .writer | .reads | .conn | .bridge => rfl

theorem raisedBy_ends (s : State ε) {i : Nat} {x : StreamTask ε} (e : Ending ε) {d : Duty} (hd : d ≠ .stream i) :
    State.raisedBy { s with streams := s.streams.set i { x with ended := some e } } d = s.raisedBy d := by
  match d with
  | .stream k =>
    have hne : i ≠ k := fun heq => hd (heq ▸ rfl)
    simp only [State.raisedBy, List.getElem?_set_ne hne]
  | .task _ | .writer | .reads | .conn | .bridge => rfl

theorem raisedBy_ended (s : State ε) {i : Nat} {x : StreamTask ε} (hx : s.streams[i]? = some x)
    (e : Ending ε) :
    State.raisedBy { s with streams := s.streams.set i { x with ended := some e } } (.stream i)
      = match e with | .raised e => some e | _ => none := by
  have hlt : i < s.streams.length := (List.getElem?_eq_some_iff.mp hx).1
  simp only [State.raisedBy, List.getElem?_set_self hlt]
  match e with
  | .clean | .cancelled | .raised _ => rfl

/-- A duty that is begun raises nothing yet. -/
theorem perform_not_raising (d : Duty) (todo : List Duty) : ¬ Raising (s.perform d todo) := by
  match d with
  | .stream i =>
    simp only [State.perform]
    split
    · exact not_raising_of rfl (by simp) (by simp)
    · next hr =>
      have hawait : State.closer { s with
          streams := s.streams.modify i fun t => { t with stop := true }
          closer := .awaiting (.stream i) todo } = .awaiting (.stream i) todo := rfl
      rw [raising_iff_of_awaiting hawait]
      rintro ⟨e, he⟩
      exact hr (raisedBy_released ((raisedBy_stop s i (.stream i)).symm.trans he))
  | .task j =>
    simp only [State.perform]
    split
    · exact not_raising_of rfl (by simp) (by simp)
    · have hawait : State.closer { s with closer := .awaiting (.task j) todo }
          = .awaiting (.task j) todo := rfl
      rw [raising_iff_of_awaiting hawait]
      simp [State.raisedBy]
  | .writer =>
    simp only [State.perform]
    have hawait : State.closer { s with workerStop := true, closer := .awaiting .writer todo }
        = .awaiting .writer todo := rfl
    rw [raising_iff_of_awaiting hawait]
    simp [State.raisedBy]
  | .reads | .conn | .bridge => exact not_raising_of (c := .at todo) rfl (by simp) (by simp)

/-- A step of another party that no await is about. -/
theorem not_raising_congr {l : Label ε} (hsame : Raising t ↔ Raising s) (hl : Survives s l) :
    ¬ Raising t ↔ ¬ Raising s ∧ Survives s l :=
  ⟨fun hno => ⟨fun hr => hno (hsame.mpr hr), hl⟩, fun hno hr => hno.1 (hsame.mp hr)⟩

/-- A stream that ends raises exactly where `close` awaits it and it ends in an exception. -/
theorem raising_ends {i : Nat} {x : StreamTask ε} {e : Ending ε} (hx : s.streams[i]? = some x)
    (hrunning : x.ended.isNone = true) :
    ¬ Raising { s with streams := s.streams.set i { x with ended := some e } }
      ↔ ¬ Raising s ∧ Survives s (.streamEnds i e) := by
  have hnone : s.raisedBy (.stream i) = none := by
    obtain ⟨stop, ended⟩ := x
    cases ended with
    | none => simp only [State.raisedBy, hx]
    | some e => cases hrunning
  by_cases hawait : ∃ todo, s.closer = .awaiting (.stream i) todo
  · obtain ⟨todo, hc⟩ := hawait
    rw [raising_iff_of_awaiting (s := { s with
        streams := s.streams.set i { x with ended := some e } }) hc, raisedBy_ended s hx e,
      raising_iff_of_awaiting hc, hnone]
    cases e with
    | raised e => simpa [Survives] using ⟨todo, hc⟩
    | clean | cancelled => simp [Survives]
  · -- the stream is not the one that is awaited
    have hother : Survives s (.streamEnds i e) := by
      cases e with
      | raised e => exact fun todo hc => hawait ⟨todo, hc⟩
      | clean | cancelled => trivial
    refine not_raising_congr ?_ hother
    exact raising_congr rfl fun d todo hc => raisedBy_ends s e fun hd => hawait ⟨todo, hd ▸ hc⟩

/-- A step raises exactly where a stream does that `close` awaits. -/
theorem raising_step (s : State ε) (l : Label ε) (t : State ε) (h : Tidy s)
    (hstep : step s l = some t) : ¬ Raising t ↔ ¬ Raising s ∧ Survives s l := by
  cases step_moves hstep with
  | again => exact ⟨fun hno => ⟨hno, trivial⟩, And.left⟩
  | close hc =>
    have hidle := h.fresh (by simpa using hc)
    refine iff_of_true (not_raising_of rfl (by simp) (by simp)) ⟨?_, trivial⟩
    exact not_raising_of hidle (by simp) (by simp)
  | done hc =>
    refine iff_of_true (not_raising_of rfl (by simp) (by simp)) ⟨?_, trivial⟩
    exact not_raising_of hc (by simp) (by simp)
  | go hc =>
    refine iff_of_true (perform_not_raising _ _) ⟨?_, trivial⟩
    exact not_raising_of hc (by simp) (by simp)
  | @raise d todo e hc he =>
    refine iff_of_false (fun hno => hno (Or.inl ⟨e, rfl⟩)) fun hno => hno.1 ?_
    exact (raising_iff_of_awaiting hc).mpr ⟨e, he⟩
  | resume hc hr hno =>
    refine iff_of_true (not_raising_of rfl (by simp) (by simp)) ⟨?_, trivial⟩
    rw [raising_iff_of_awaiting hc, hno]
    simp
  | stop i => exact not_raising_congr (raising_congr rfl fun d _ _ => raisedBy_stop s i d) trivial
  | streamEnds hx hends => exact raising_ends hx (Bool.and_eq_true_iff.mp hends).1
  | taskEnds | workerEnds =>
    exact not_raising_congr (raising_congr rfl fun d _ _ => by cases d <;> rfl) trivial

end Steps

/-! ## `close` is total -/

theorem init_tidy (streams : List (StreamTask ε)) (tasks : List Bool) :
    Tidy (State.init streams tasks) where
  fresh _ := rfl
  behind todo h := absurd h (by simp [State.pending, State.init])
  last h := absurd h (by simp [State.init])

/-- Of any open port, with whatever runs and whatever ends meanwhile: when `close` is over, having
returned or raised, everything has been stopped and closed EXACTLY if no stream raised while `close`
awaited it. -/
theorem close_releases_iff {streams : List (StreamTask ε)} {tasks : List Bool} {ls : List (Label ε)}
    {s : State ε} {r : Option ε} (hrun : run step (State.init streams tasks) ls = some s)
    (hover : s.closer = .over r) :
    AllReleased s ↔ Guarded step Survives (State.init streams tasks) ls := by
  have htidy : Tidy s := run_invariant step_tidy (init_tidy streams tasks) hrun
  have hinit : ¬ Raising (State.init streams tasks) :=
    not_raising_of (c := .idle) rfl (by simp) (by simp)
  have hiff := run_iff step_tidy (P := fun s => ¬ Raising s) raising_step (init_tidy streams tasks) hrun
  rw [and_iff_right hinit] at hiff
  rw [← hiff]
  match r with
  | none =>
    refine iff_of_true ?_ (not_raising_of hover (by simp) (by simp))
    obtain ⟨done, hduties, hdone⟩ := htidy.behind [] (by rw [State.pending, hover])
    intro d hd
    rw [hduties, List.append_nil] at hd
    exact hdone d hd
  | some e =>
    -- the bridge is still there
    refine iff_of_false (fun hall => ?_) fun hno => hno (Or.inl ⟨e, hover⟩)
    have hbridge : s.bridgeClosed = true := hall .bridge (by simp [State.duties])
    have hpending := htidy.last hbridge
    rw [State.pending, hover] at hpending
    exact absurd hpending (by simp)

/-- Two streams and a task: one stream has died before, the other is told to stop and sweeps what is
left; the task and the worker end while they are awaited. -/
def cleanClose : List (Label String) :=
  [.streamEnds 0 (.raised "SchemaError"), .close, .go, .go, .streamEnds 1 .clean, .resume, .go, .taskEnds 0,
    .resume, .go, .workerEnds, .resume, .go, .go, .go, .go]

theorem cleanClose_survives :
    Guarded step Survives (State.init [⟨false, none⟩, ⟨false, none⟩] [false]) cleanClose := by
  refine ⟨fun todo => by simp [State.init], fun t ht => ?_⟩
  obtain rfl := Option.some.inj ht
  repeat
    refine ⟨trivial, fun t ht => ?_⟩
    obtain rfl := Option.some.inj ht
  trivial

theorem close_releases_clean : ∃ s : State String,
    run step (State.init [⟨false, none⟩, ⟨false, none⟩] [false]) cleanClose = some s
      ∧ s.closer = .over none ∧ AllReleased s := by
  have hends : ∃ s : State String,
      run step (State.init [⟨false, none⟩, ⟨false, none⟩] [false]) cleanClose = some s
        ∧ s.closer = .over none := ⟨_, rfl, rfl⟩
  obtain ⟨s, hs, hover⟩ := hends
  exact ⟨s, hs, hover, (close_releases_iff hs hover).mpr cleanClose_survives⟩

/-- The lines that the first stream finds in its last sweep are no rows of its table. -/
def failedSweep : List (Label String) :=
  [.close, .go, .streamEnds 0 (.raised "SchemaError"), .resume, .close]

/-- `close` has raised: the other stream, the task and the worker still run, the pool, the connection and
the bridge are open, and a second call does nothing. -/
theorem failed_sweep_leaves_open : ∃ s : State String,
    run step (State.init [⟨false, none⟩, ⟨false, none⟩] [false]) failedSweep = some s
      ∧ s.closer = .over (some "SchemaError") ∧ s.closed = true ∧ ¬ AllReleased s
      ∧ s.released (.stream 1) = false ∧ s.released (.task 0) = false ∧ s.released .writer = false
      ∧ s.released .reads = false ∧ s.released .conn = false ∧ s.released .bridge = false := by
  have hends : ∃ s : State String,
      run step (State.init [⟨false, none⟩, ⟨false, none⟩] [false]) failedSweep = some s
        ∧ s.closer = .over (some "SchemaError") ∧ s.closed = true
        ∧ s.released (.stream 1) = false ∧ s.released (.task 0) = false ∧ s.released .writer = false
        ∧ s.released .reads = false ∧ s.released .conn = false ∧ s.released .bridge = false :=
    ⟨_, rfl, rfl, rfl, rfl, rfl, rfl, rfl, rfl, rfl⟩
  obtain ⟨s, hs, hover, hclosed, hleft⟩ := hends
  refine ⟨s, hs, hover, hclosed, fun hall => ?_, hleft⟩
  have hbridge : s.released .bridge = true := hall .bridge (by simp [State.duties])
  rw [hleft.2.2.2.2.2] at hbridge
  exact absurd hbridge (by simp)

end Seekbase.Closing
