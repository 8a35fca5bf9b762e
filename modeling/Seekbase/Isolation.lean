/-
# Seekbase.Isolation — the reads on the pool, each as if it were alone.

`run_query` and `run_plan` are programs of the pool: a guard and the views, then one statement after
another, on a cursor that other reads have left their views and their `_bridge` on, and on a database
that writers change in between.  Neither reaches into an answer, unless a text asks for the `_bridge` by
name.

* `reads`          — the two reads, a statement at a time;
* `rest_next`      — in one state the statements come to what `runQuery` and `runPlan` compute;
* `follow_fresh`   — on any cursor they come to what they come to on a fresh one;
* `reads_isolated` — so in every interleaving on the pool;
* `close_joins`    — and `close` waits for those that no interrupt has reached.
-/
import Seekbase.ReadPool
import Seekbase.Unseen

namespace Seekbase.ReadPool

open Transition

/-! ## The two reads as programs -/

section Reads

open Lines

variable (engine : Engine) {schema : ReadSchema}

/-- A read whose window has passed `_check_ds`, which comes before the pool. -/
structure Asked where
  window : Window
  read : PastRead
  checked : window.check engine.repr = .ok ()

/-- What a read has still to do. -/
inductive Doing where
  /-- The guard and the views of `run_query`. -/
  | query (w : Window) (sql : String) (params : List Val)
  | select (sql : String) (params : List Val)
  /-- The views of `run_plan`. -/
  | install (w : Window) (phases : List PlanPhase)
  | phases (rows : List Record) (phase : PlanPhase) (rest : List PlanPhase)
  | load (out : Bytes) (rows : List Record) (phase : PlanPhase) (rest : List PlanPhase)

/-- The next phase, or the answer. -/
def proceed (c : Cursor schema) (rows : List Record) :
    List PlanPhase → Cursor schema × (Doing ⊕ Except PipeExc (List Record))
  | [] => (c, .inr (.ok rows))
  | phase :: rest => (c, .inl (.phases rows phase rest))

/-- One statement of `_do`. -/
def statement (world : World) (c : Cursor schema) :
    Doing → Cursor schema × (Doing ⊕ Except PipeExc (List Record))
  | .query w sql params =>
    match guardRead engine "query must be a single read statement" notSelect sql with
    | .error e => (c, .inr (.error e))
    | .ok () => (c.install w, .inl (.select sql params))
  | .select sql params => (c, .inr (fetch engine c world sql params))
  | .install w phases => proceed (c.install w) [] phases
  | .phases _ (.duck sql params) rest =>
    match guardRead engine notSelect notSelect sql with
    | .error e => (c, .inr (.error e))
    | .ok () =>
      match fetch engine c world sql params with
      | .error e => (c, .inr (.error e))
      | .ok rows => proceed c rows rest
  | .phases rows (.bash argvs) rest =>
    match engine.bash argvs (rowsToJsonl rows) with
    | .error why => (c, .inr (.error (queryError why)))
    | .ok out =>
      match rest with
      | [] => (c, .inr (jsonlToRows engine.jsonWhy out))
      | phase :: rest => (c, .inl (.load out rows phase rest))
  | .load out rows phase rest =>
    match loadBridge engine c out with
    | .error e => (c, .inr (.error e))
    | .ok c => (c, .inl (.phases rows phase rest))

/-- A chain of processes is nothing that DuckDB runs. -/
def Doing.heeds : Doing → Bool
  | .phases _ (.bash _) _ => false
  | _ => true

def begin (k : Asked engine) : Doing :=
  match k.read with
  | .query sql params => .query k.window sql params
  | .plan phases => .install k.window phases

/-- `run_query` and `run_plan`, a statement at a time. -/
def reads : Program (Asked engine) World (Cursor schema) Doing (Except PipeExc (List Record)) where
  start := begin engine
  statement := statement engine
  heeds := Doing.heeds

/-! ## A read with nothing beside it -/

/-- What is left of a read, all in one state. -/
def rest (world : World) : Cursor schema × (Doing ⊕ Except PipeExc (List Record)) → Answer schema
  | (c, .inl (.query w sql params)) =>
    match guardRead engine "query must be a single read statement" notSelect sql with
    | .error e => (.error e, c)
    | .ok () => (fetch engine (c.install w) world sql params, c.install w)
  | (c, .inl (.select sql params)) => (fetch engine c world sql params, c)
  | (c, .inl (.install w phases)) => runPhases engine world (c.install w) [] phases
  | (c, .inl (.phases rows phase rest)) => runPhases engine world c rows (phase :: rest)
  | (c, .inl (.load out rows phase rest)) =>
    match loadBridge engine c out with
    | .error e => (.error e, c)
    | .ok c => runPhases engine world c rows (phase :: rest)
  | (c, .inr r) => (r, c)

/-- The read as a whole, on this cursor. -/
def Asked.answer (k : Asked engine) (c : Cursor schema) (world : World) : Answer schema :=
  match k.read with
  | .query sql params => runQuery engine c world k.window sql params
  | .plan phases => runPlan engine c world k.window phases

variable {engine}

theorem rest_proceed (world : World) (c : Cursor schema) (rows : List Record)
    (phases : List PlanPhase) :
    rest engine world (proceed c rows phases) = runPhases engine world c rows phases := by
  cases phases <;> rfl

/-- A statement leaves the rest as it is. -/
theorem rest_next (world : World) (x : Cursor schema × (Doing ⊕ Except PipeExc (List Record))) :
    rest engine world ((reads engine).next x world) = rest engine world x := by
  rcases x with ⟨c, d | r⟩
  · show rest engine world (statement engine world c d) = _
    cases d with
    | query w sql params =>
      simp only [statement, rest]
      cases guardRead engine "query must be a single read statement" notSelect sql <;> rfl
    | select sql params => rfl
    | install w phases => exact rest_proceed world (c.install w) [] phases
    | phases rows phase later =>
      cases phase with
      | duck sql params =>
        simp only [statement, rest, runPhases]
        cases guardRead engine notSelect notSelect sql with
        | error e => rfl
        | ok _ =>
          cases fetch engine c world sql params with
          | error e => rfl
          | ok rows => exact rest_proceed world c rows later
      | bash argvs =>
        simp only [statement, rest, runPhases]
        cases engine.bash argvs (rowsToJsonl rows) with
        | error why => rfl
        | ok out => cases later <;> rfl
    | load out rows phase later =>
      simp only [statement, rest]
      cases loadBridge engine c out <;> rfl
  · rfl

/-- A query whose window is a window installs it and runs. -/
theorem runQuery_checked {c : Cursor schema} {world : World} {w : Window} {sql : String}
    {params : List Val} (h : w.check engine.repr = .ok ()) :
    runQuery engine c world w sql params = rest engine world (c, .inl (.query w sql params)) := by
  unfold runQuery
  rw [h]
  rfl

theorem rest_begin (world : World) (c : Cursor schema) (k : Asked engine) :
    rest engine world (c, .inl (begin engine k)) = k.answer engine c world := by
  unfold begin Asked.answer
  cases k.read with
  | query sql params =>
    exact (runQuery_checked k.checked).symm
  | plan phases =>
    show runPhases engine world (c.install k.window) [] phases = runPlan engine c world k.window phases
    unfold runPlan
    rw [k.checked]

theorem rest_foldl (world : World) {ws : List World} (hws : ∀ w ∈ ws, w = world)
    (x : Cursor schema × (Doing ⊕ Except PipeExc (List Record))) :
    rest engine world (ws.foldl (reads engine).next x) = rest engine world x := by
  induction ws generalizing x with
  | nil => rfl
  | cons w ws ih =>
    rw [List.foldl_cons, ih fun v hv => hws v (List.mem_cons_of_mem w hv), hws w List.mem_cons_self]
    exact rest_next world x

/-- A read none of whose statements finds the state changed answers as it does as a whole. -/
theorem follow_answer {world : World} {ws : List World} (hws : ∀ w ∈ ws, w = world)
    {c : Cursor schema} {k : Asked engine} {r : Except PipeExc (List Record)}
    (h : ((reads engine).follow c (begin engine k) ws).2 = .inr r) :
    (k.answer engine c world).1 = r := by
  rw [← rest_begin, ← rest_foldl world hws]
  show (rest engine world ((reads engine).follow c (begin engine k) ws)).1 = r
  rcases hx : (reads engine).follow c (begin engine k) ws with ⟨d, y⟩
  rw [hx] at h
  obtain rfl : y = .inr r := h
  rfl

/-! ## A read on a cursor that others have used -/

variable (engine) in
/-- The text names no `_bridge` but the schema's, or the one its own read has filled. -/
def OwnText (schema : ReadSchema) (bridged : Bool) (sql : String) : Prop :=
  .relation bridgeName ∈ engine.sources sql → bridgeName ∈ schema.names ∨ bridged = true

variable (engine) in
def OwnPhases (schema : ReadSchema) : Bool → List PlanPhase → Prop
  | _, [] => True
  | bridged, .duck sql _ :: rest =>
    OwnText engine schema bridged sql ∧ OwnPhases schema bridged rest
  | _, .bash _ :: rest => OwnPhases schema true rest

/-- No text of the read takes the `_bridge` an earlier read has left. -/
def Asked.Own (schema : ReadSchema) (k : Asked engine) : Prop :=
  match k.read with
  | .query sql _ => OwnText engine schema false sql
  | .plan phases => OwnPhases engine schema false phases

variable (engine) in
/-- Two cursors on which the same read has come equally far. -/
def Doing.Beside (c c' : Cursor schema) : Doing → Prop
  | .query _ sql _ => OwnText engine schema false sql
  | .select sql _ => ∃ w, c.Alike w false c' ∧ OwnText engine schema false sql
  | .install _ plan => OwnPhases engine schema false plan
  | .phases _ phase rest => ∃ w bridged, c.Alike w bridged c'
    ∧ OwnPhases engine schema bridged (phase :: rest)
  | .load _ _ phase rest => ∃ w bridged, c.Alike w bridged c'
    ∧ OwnPhases engine schema true (phase :: rest)

variable (engine) in
/-- Two runs of one read: both have answered the same, or both have the same to do. -/
def Beside (x x' : Cursor schema × (Doing ⊕ Except PipeExc (List Record))) : Prop :=
  x.2 = x'.2 ∧ ∀ d, x.2 = .inl d → d.Beside engine x.1 x'.1

variable {w : Window} {c c' : Cursor schema} {bridged : Bool}

theorem content_own (hc : c.Alike w bridged c') (world : World) {s : Source}
    (h : s = .relation bridgeName → bridgeName ∈ schema.names ∨ bridged = true) :
    c.content world s = c'.content world s := by
  cases s with
  | visible table w' => rfl
  | relation name =>
    apply content_shown hc (fun _ _ => rfl)
    by_cases hname : name = bridgeName
    · subst hname
      rcases h rfl with hin | hb
      · exact Or.inl hin
      · exact Or.inr (Or.inl ⟨hb, rfl⟩)
    · exact Or.inr (Or.inr ⟨hname, rfl⟩)

theorem fetch_own (hc : c.Alike w bridged c') (world : World) {sql : String}
    (h : OwnText engine schema bridged sql) (params : List Val) :
    fetch engine c world sql params = fetch engine c' world sql params := by
  have henv : engine.execute sql params (c.content world)
      = engine.execute sql params (c'.content world) :=
    engine.execute_local sql params _ _ fun s hs => content_own hc world fun heq => h (heq ▸ hs)
  simp only [fetch, henv]

theorem beside_answer (r : Except PipeExc (List Record)) :
    Beside engine (c, .inr r) (c', .inr r) :=
  ⟨rfl, fun _ hd => by cases hd⟩

theorem beside_proceed (hc : c.Alike w bridged c') (rows : List Record) {phases : List PlanPhase}
    (h : OwnPhases engine schema bridged phases) :
    Beside engine (proceed c rows phases) (proceed c' rows phases) := by
  cases phases with
  | nil => exact beside_answer _
  | cons phase rest =>
    refine ⟨rfl, fun d hd => ?_⟩
    rcases Sum.inl.inj hd with rfl
    exact ⟨w, bridged, hc, h⟩

/-- A statement keeps them equally far. -/
theorem beside_statement {d : Doing} (h : d.Beside engine c c') (world : World) :
    Beside engine (statement engine world c d) (statement engine world c' d) := by
  cases d with
  | query w sql params =>
    simp only [statement]
    cases guardRead engine "query must be a single read statement" notSelect sql with
    | error e => exact beside_answer _
    | ok _ =>
      refine ⟨rfl, fun d hd => ?_⟩
      rcases Sum.inl.inj hd with rfl
      exact ⟨w, installed_alike c c' w, h⟩
  | select sql params =>
    obtain ⟨w, hc, hown⟩ := h
    simp only [statement, fetch_own hc world hown]
    exact beside_answer _
  | install w phases => exact beside_proceed (installed_alike c c' w) [] h
  | phases rows phase later =>
    obtain ⟨w, bridged, hc, hown⟩ := h
    cases phase with
    | duck sql params =>
      simp only [statement, fetch_own hc world hown.1]
      cases guardRead engine notSelect notSelect sql with
      | error e => exact beside_answer _
      | ok _ =>
        cases fetch engine c' world sql params with
        | error e => exact beside_answer _
        | ok rows => exact beside_proceed hc rows hown.2
    | bash argvs =>
      simp only [statement]
      cases engine.bash argvs (rowsToJsonl rows) with
      | error why => exact beside_answer _
      | ok out =>
        cases later with
        | nil => exact beside_answer _
        | cons phase later =>
          refine ⟨rfl, fun d hd => ?_⟩
          rcases Sum.inl.inj hd with rfl
          exact ⟨w, bridged, hc, hown⟩
  | load out rows phase later =>
    obtain ⟨w, bridged, hc, hown⟩ := h
    simp only [statement]
    rcases loadBridge_alike engine hc out with ⟨e, he, he'⟩ | ⟨b, b', hb, hb', halike⟩
    · simp only [he, he']
      exact beside_answer _
    · simp only [hb, hb']
      refine ⟨rfl, fun d hd => ?_⟩
      rcases Sum.inl.inj hd with rfl
      exact ⟨w, true, halike, hown⟩

theorem beside_foldl (ws : List World)
    {x x' : Cursor schema × (Doing ⊕ Except PipeExc (List Record))} (h : Beside engine x x') :
    Beside engine (ws.foldl (reads engine).next x) (ws.foldl (reads engine).next x') := by
  induction ws generalizing x x' with
  | nil => exact h
  | cons world ws ih =>
    apply ih
    rcases x with ⟨c, d | r⟩
    · rcases x' with ⟨c', d'⟩
      obtain rfl : .inl d = d' := h.1
      exact beside_statement (h.2 d rfl) world
    · rcases x' with ⟨c', r'⟩
      obtain rfl : .inr r = r' := h.1
      exact beside_answer r

/-- A read that leaves alone what earlier reads have left answers on any cursor what it answers on a
fresh one, whatever the states its statements find. -/
theorem follow_fresh {k : Asked engine} (hk : k.Own schema) (c : Cursor schema) (ws : List World) :
    ((reads engine).follow c (begin engine k) ws).2
      = ((reads engine).follow (Cursor.fresh : Cursor schema) (begin engine k) ws).2 := by
  apply (beside_foldl ws _).1
  refine ⟨rfl, fun d hd => ?_⟩
  rcases Sum.inl.inj hd with rfl
  unfold begin
  unfold Asked.Own at hk
  revert hk
  cases k.read <;> exact id

/-- However the reads on the pool are interleaved with each other, with the writer's commits and with
`close`: what a read answers is what its own statements answer on a fresh cursor, on states in the order
in which the writer has gone through them, none of them older than the read; and if they all find one
state, it is what the read as a whole answers there. -/
theorem reads_isolated {workers : Nat} {world : World}
    {ls : List (Label (Asked engine) World (Cursor schema) PipeExc)}
    {t : Pool (Asked engine) World (Cursor schema) Doing (Except PipeExc (List Record)) PipeExc}
    (hrun : run (step (reads engine)) (Pool.create workers Cursor.fresh world) ls = some t)
    {n : Nat} {r : Except PipeExc (List Record)} (hr : (n, .ok r) ∈ t.results) :
    ∃ k since, ∃ seen : List Nat, t.requests[n]? = some (k, since) ∧ seen.Pairwise (· ≤ ·)
      ∧ (∀ i ∈ seen, since ≤ i ∧ i < t.states.length)
      ∧ (k.Own schema →
          ((reads engine).follow (Cursor.fresh : Cursor schema) (begin engine k)
            (seen.filterMap (t.states[·]?))).2 = .inr r
          ∧ ∀ a, (∀ i ∈ seen, t.states[i]? = some a) →
            (k.answer engine (Cursor.fresh : Cursor schema) a).1 = r) := by
  obtain ⟨d, k, since, c, seen, hk, hsorted, hseen, hfollow⟩ := (run_inv hrun).ended n r hr
  refine ⟨k, since, seen, hk, hsorted, hseen, fun hown => ?_⟩
  have hfresh : ((reads engine).follow (Cursor.fresh : Cursor schema) (begin engine k)
      (seen.filterMap (t.states[·]?))).2 = .inr r := by
    rw [← follow_fresh hown c]
    exact congrArg Prod.snd hfollow
  refine ⟨hfresh, fun a ha => follow_answer (fun x hx => ?_) hfresh⟩
  obtain ⟨i, hi, hix⟩ := List.mem_filterMap.mp hx
  exact Option.some.inj (hix.symm.trans (ha i hi))

/-! ## Closing the pool of reads -/

/-- How many statements a read has still to run, at most. -/
def Doing.size : Doing → Nat
  | .query .. => 1
  | .select .. => 0
  | .install _ plan => 2 * plan.length + 1
  | .phases _ _ later => 2 * later.length + 2
  | .load _ _ _ later => 2 * later.length + 3

variable (engine schema) in
theorem reads_halt :
    (reads engine : Program _ _ (Cursor schema) _ _).Halts Doing.size := by
  intro world c d q h
  replace h : (statement engine world c d).2 = .inl q := h
  have hproceed : ∀ (b : Cursor schema) rows plan, (proceed b rows plan).2 = .inl q →
      q.size < 2 * plan.length + 1 := by
    intro b rows plan hq
    cases plan with
    | nil => cases hq
    | cons phase later =>
      rcases Sum.inl.inj hq with rfl
      simp only [Doing.size, List.length_cons]
      omega
  cases d with
  | query w sql params =>
    simp only [statement] at h
    split at h
    · cases h
    · rcases Sum.inl.inj h with rfl
      exact Nat.zero_lt_one
  | select sql params => cases h
  | install w plan => exact hproceed _ _ _ h
  | phases rows phase later =>
    cases phase with
    | duck sql params =>
      simp only [statement] at h
      split at h
      · cases h
      · split at h
        · cases h
        · exact Nat.lt_succ_of_lt (hproceed _ _ _ h)
    | bash argvs =>
      simp only [statement] at h
      split at h
      · cases h
      · split at h
        · cases h
        · rcases Sum.inl.inj h with rfl
          simp only [Doing.size, List.length_cons]
          omega
  | load out rows phase later =>
    simp only [statement] at h
    split at h
    · cases h
    · rcases Sum.inl.inj h with rfl
      exact Nat.lt_succ_self _

/-- Which reads keep `close` in its `shutdown(wait=True)`, when every cursor has been interrupted: those
that do not answer by themselves and that no interrupt has reached.  They were queued, about to borrow a
cursor, between two statements or waiting for a chain of processes when their cursor was interrupted, and
may have begun a statement of DuckDB since.  With one of them left the threads are never joined; with
none, every run is bounded but for the writes, and comes to the end. -/
theorem close_joins {workers : Nat} (hw : 0 < workers) {world : World}
    {before : List (Label (Asked engine) World (Cursor schema) PipeExc)}
    {s : Pool (Asked engine) World (Cursor schema) Doing (Except PipeExc (List Record)) PipeExc}
    (hrun : run (step (reads engine)) (Pool.create workers Cursor.fresh world) before = some s)
    (hs : s.stage = .closing []) (R : Nat → Prop) :
    (s.Stuck R → ∀ ls t, Guarded (step (reads engine)) (Stays (reads engine) R) s ls →
        run (step (reads engine)) s ls = some t → t.stage ≠ .closed)
      ∧ (¬ s.Stuck R → ∀ ls t, Guarded (step (reads engine)) (Stays (reads engine) R) s ls →
        run (step (reads engine)) s ls = some t →
        ls.length ≤ s.work (reads engine) Doing.size + ls.countP Label.isWrite
          ∧ (t.stage = .closed ∨ ∃ l, l.isWrite = false ∧ Stays (reads engine) R t l
            ∧ (step (reads engine) t l).isSome = true)) :=
  have : Nonempty PipeExc := ⟨queryError ""⟩
  joins_iff (reads_halt engine schema) hw hrun hs

end Reads

/-! ## Two reads of the notes -/

/-- A count of the notes. -/
def countNotes : Asked countEngine := ⟨now, .query (countText ++ "notes") [], rfl⟩

/-- The pool with two cursors. -/
def twoCursors : Pool (Asked countEngine) World (Cursor notesReads) Doing
    (Except PipeExc (List Record)) PipeExc :=
  Pool.create 2 Cursor.fresh nothingStored

abbrev NotesLabel := Label (Asked countEngine) World (Cursor notesReads) PipeExc

/-- The second read has installed its views when the first answers, and a note is deleted before it
counts. -/
def interleaved : List NotesLabel :=
  [.submit countNotes, .submit countNotes, .start 1, .start 0, .borrow 0, .borrow 1, .issue 1, .issue 0,
    .finish 0, .finish 1, .issue 1, .finish 1, .giveBack 1, .write noteDeleted, .issue 0, .finish 0,
    .giveBack 0]

theorem own_countNotes : countNotes.Own notesReads := by
  intro h
  have hsources : countEngine.sources (countText ++ "notes") = [.relation "notes"] := by
    decide +kernel
  rw [hsources, List.mem_singleton] at h
  injection h with h
  exact absurd h (by decide)

theorem interleaved_requests : (run (step (reads countEngine)) twoCursors interleaved).map
    (fun t => t.requests) = some [(countNotes, 0), (countNotes, 0)] := rfl

/-- Both reads answer, the one on the thread that took it first too. -/
theorem reads_isolated_notes : ∃ t r, run (step (reads countEngine)) twoCursors interleaved = some t
    ∧ (1, .ok r) ∈ t.results ∧ counted r = some 0
    ∧ ∃ seen : List Nat, seen.Pairwise (· ≤ ·) ∧ (∀ i ∈ seen, i < t.states.length)
      ∧ ((reads countEngine).follow (Cursor.fresh : Cursor notesReads) (begin countEngine countNotes)
          (seen.filterMap (t.states[·]?))).2 = .inr r
      ∧ ∀ a, (∀ i ∈ seen, t.states[i]? = some a) →
        (countNotes.answer countEngine (Cursor.fresh : Cursor notesReads) a).1 = r := by
  have hany : ((run (step (reads countEngine)) twoCursors interleaved).any fun t =>
      t.results.any fun x => x.1 == 1 && (x.2.toOption.any fun r => counted r == some 0)) = true := by
    decide +kernel
  obtain ⟨t, ht, hany⟩ := (Option.any_eq_true _ _).mp hany
  obtain ⟨⟨n, x⟩, hx, hcount⟩ := List.any_eq_true.mp hany
  rw [Bool.and_eq_true, beq_iff_eq] at hcount
  obtain ⟨rfl, hcount⟩ := hcount
  cases x with
  | error e => cases hcount
  | ok r =>
    have hr : counted r = some 0 := by simpa [Except.toOption] using hcount
    obtain ⟨k, since, seen, hk, hsorted, hseen, hanswer⟩ := reads_isolated ht hx
    -- the read that answered is the second count
    have hrequests := interleaved_requests
    rw [ht, Option.map_some, Option.some.injEq] at hrequests
    rw [hrequests] at hk
    obtain ⟨rfl, rfl⟩ := Prod.mk.inj (Option.some.inj hk)
    obtain ⟨hfollow, hone⟩ := hanswer own_countNotes
    exact ⟨t, r, ht, hx, hr, seen, hsorted, fun i hi => (hseen i hi).2, hfollow, hone⟩

/-- On its way the pool has each cursor and each read in one place. -/
theorem one_place_notes : ∃ t, run (step (reads countEngine)) twoCursors interleaved = some t
    ∧ (∀ i < 2, t.cursorAt i = 1) ∧ (∀ n < t.requests.length, t.jobAt n = 1)
      ∧ ∀ n, .waiting n ∈ t.threads → t.free ≠ [] := by
  have hsome : (run (step (reads countEngine)) twoCursors interleaved).isSome = true := by
    decide +kernel
  obtain ⟨t, ht⟩ := Option.isSome_iff_exists.mp hsome
  exact ⟨t, ht, one_place ht⟩

/-- The first read is between its two statements when its cursor is interrupted, the second is in one. -/
def interrupted : List NotesLabel :=
  [.submit countNotes, .submit countNotes, .start 0, .start 1, .borrow 0, .borrow 1, .issue 0, .issue 1,
    .finish 0, .close, .interrupt, .interrupt]

/-- If the first read never answers by itself `close` waits for ever, and the second keeps it from
nothing. -/
theorem close_joins_notes : ∃ s,
    run (step (reads countEngine)) twoCursors interrupted = some s
      ∧ (∀ ls t, Guarded (step (reads countEngine)) (Stays (reads countEngine) (· = 0)) s ls →
        run (step (reads countEngine)) s ls = some t → t.stage ≠ .closed)
      ∧ ∀ ls t, Guarded (step (reads countEngine)) (Stays (reads countEngine) (· = 1)) s ls →
        run (step (reads countEngine)) s ls = some t →
        ls.length ≤ s.work (reads countEngine) Doing.size + ls.countP Label.isWrite
          ∧ (t.stage = .closed ∨ ∃ l, l.isWrite = false ∧ Stays (reads countEngine) (· = 1) t l
            ∧ (step (reads countEngine) t l).isSome = true) := by
  have hany : ((run (step (reads countEngine)) twoCursors interrupted).any fun s =>
      decide (s.stage = .closing [] ∧ s.Stuck (· = 0) ∧ ¬ s.Stuck (· = 1))) = true := by
    decide +kernel
  obtain ⟨s, hs, hat⟩ := (Option.any_eq_true _ _).mp hany
  obtain ⟨hstage, hstuck, hfree⟩ := of_decide_eq_true hat
  exact ⟨s, hs, (close_joins (Nat.succ_pos 1) hs hstage (· = 0)).1 hstuck,
    (close_joins (Nat.succ_pos 1) hs hstage (· = 1)).2 hfree⟩

end Seekbase.ReadPool
