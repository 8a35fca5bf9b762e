/-
# Seekbase.Shutdown — the queue in front of the write worker, and what `close` does to it.

`System.lean` starts where an operation has been taken off the queue.  This module is the other half:
`_submit` hands out a future and queues it, the loop drains what is queued into a batch, and `close`
raises the stop flag and queues a sentinel.  Between two awaits the loop runs without interruption, so
leaving a batch and looking at the queue again is ONE step.

* `drain`       — a batch is everything queued up to the sentinel;
* `State.Lost`  — a future from before `close` stays queued behind a loop that will not look again;
* `shutdown_answers` — every future handed out before `close` is completed iff `close` found the queue
                  empty or the loop waiting on it.
-/
import Mathlib.Data.List.Nodup
import Mathlib.Data.List.TakeWhile
import Seekbase.Lib.Run

namespace Seekbase.Shutdown

open Transition

/-- A queued operation and the future its caller awaits. -/
structure Request (ο : Type) where
  op : ο
  fut : Nat

section Machine

variable {ο ρ ε : Type}

/-- Where `_worker_loop` is. -/
inductive Loop (ο ρ : Type) where
  /-- Created; its first step has not run. -/
  | created
  /-- In `await self._q.get()`. -/
  | waiting
  /-- In `_process_batch`: the operations still to run, and the results that wait for the task lines. -/
  | processing (batch todo : List (Request ο)) (executed : List (Nat × ρ))
  | finished

structure State (ο ρ ε : Type) where
  /-- `None` is the sentinel. -/
  queue : List (Option (Request ο))
  stop : Bool
  loop : Loop ο ρ
  /-- The number of futures handed out. -/
  issued : Nat
  /-- The number of futures handed out when `close` was called. -/
  closedAt : Option Nat
  outcomes : List (Nat × Except ε ρ)

def State.init : State ο ρ ε := ⟨[], false, .created, 0, none, []⟩

/-- `fut.done()`. -/
def State.done (s : State ο ρ ε) (n : Nat) : Bool := s.outcomes.any (·.1 == n)

/-- `if not fut.done(): fut.set_result(…)`, or `set_exception`. -/
def State.complete (s : State ο ρ ε) (n : Nat) (r : Except ε ρ) : State ο ρ ε :=
  if s.done n then s else { s with outcomes := s.outcomes ++ [(n, r)] }

def State.completeAll (s : State ο ρ ε) (rs : List (Nat × Except ε ρ)) : State ο ρ ε :=
  rs.foldl (fun s r => s.complete r.1 r.2) s

/-- What `get_nowait` takes until the queue is empty or gives the sentinel. -/
def taken (queue : List (Option (Request ο))) : List (Request ο) :=
  (queue.takeWhile Option.isSome).filterMap id

/-- The first item has been got: a sentinel ends the loop, a request starts a batch with everything
queued up to a sentinel. -/
def State.drain (s : State ο ρ ε) : State ο ρ ε :=
  match s.queue with
  | [] => { s with loop := .waiting }
  | none :: queue => { s with queue := queue, loop := .finished }
  | some r :: queue =>
    let batch := r :: taken queue
    match queue.dropWhile Option.isSome with
    | [] => { s with queue := [], loop := .processing batch batch [] }
    | _ :: rest => { s with queue := rest, stop := true, loop := .processing batch batch [] }

/-- `while not self._stop: first = await self._q.get()`. -/
def State.loopTop (s : State ο ρ ε) : State ο ρ ε :=
  if s.stop then { s with loop := .finished } else s.drain

inductive Label (ο ρ ε : Type) where
  | submit (op : ο)
  | close
  | start
  | wake
  | execute (r : Except ε ρ)
  | record (r : Except ε Unit)

def step (s : State ο ρ ε) : Label ο ρ ε → Option (State ο ρ ε)
  | .submit op => some { s with queue := s.queue ++ [some ⟨op, s.issued⟩], issued := s.issued + 1 }
  | .close =>
    match s.closedAt with
    | none => some { s with stop := true, queue := s.queue ++ [none], closedAt := some s.issued }
    | some _ => none
  | .start =>
    match s.loop with
    | .created => some s.loopTop
    | _ => none
  | .wake =>
    match s.loop with
    | .waiting => if s.queue = [] then none else some s.drain
    | _ => none
  -- `_execute_one` of the next operation of the batch
  | .execute r =>
    match s.loop with
    | .processing batch (q :: todo) executed =>
      match r with
      | .ok x => some { s with loop := .processing batch todo (executed ++ [(q.fut, x)]) }
      | .error e => some ({ s with loop := .processing batch todo executed }.complete q.fut (.error e))
    | _ => none
  -- the task lines, then the futures: an exception reaches every future of the batch
  | .record r =>
    match s.loop with
    | .processing batch [] executed =>
      match r with
      | .ok () => some (s.completeAll (executed.map fun x => (x.1, .ok x.2))).loopTop
      | .error e => some (s.completeAll (batch.map fun q => (q.fut, .error e))).loopTop
    | _ => none

/-! ## What is queued, and what a batch holds -/

/-- The futures of a piece of the queue. -/
def futs (queue : List (Option (Request ο))) : List Nat := queue.filterMap fun i => i.map Request.fut

def State.queued (s : State ο ρ ε) : List Nat := futs s.queue

/-- The futures of the batch in progress. -/
def Loop.batch : Loop ο ρ → List Nat
  | .processing batch _ _ => batch.map Request.fut
  | _ => []

/-- The futures nobody has to complete but the loop. -/
def State.held (s : State ο ρ ε) : List Nat := s.loop.batch ++ s.queued

/-- In a batch every future is completed, still to run, or waits for the task lines. -/
def State.BatchOpen (s : State ο ρ ε) : Loop ο ρ → Prop
  | .processing batch todo executed =>
    (∀ q ∈ batch, s.done q.fut = true ∨ q ∈ todo ∨ q.fut ∈ executed.map Prod.fst)
      ∧ (∀ q ∈ todo, q ∈ batch) ∧ ∀ x ∈ executed, x.1 ∈ batch.map Request.fut
  | _ => True

structure Inv (s : State ο ρ ε) : Prop where
  held_lt : ∀ n ∈ s.held, n < s.issued
  nodup : s.held.Nodup
  queued_open : ∀ n ∈ s.queued, s.done n = false
  done_lt : ∀ n, s.done n = true → n < s.issued
  accounted : ∀ n < s.issued, s.done n = true ∨ n ∈ s.held
  batchOpen : s.BatchOpen s.loop
  stop_iff : s.stop = s.closedAt.isSome
  noSentinel : s.closedAt = none → none ∉ s.queue
  closed_le : ∀ k, s.closedAt = some k → k ≤ s.issued
  late : ∀ k, s.closedAt = some k → ∀ n ∈ futs (s.queue.dropWhile Option.isSome), k ≤ n

def Loop.isWaiting : Loop ο ρ → Bool
  | .waiting => true
  | _ => false

/-- A future from before `close` is queued, and the loop will not look at the queue again. -/
def State.Lost (s : State ο ρ ε) : Prop :=
  ∃ k n, s.closedAt = some k ∧ n < k ∧ n ∈ s.queued ∧ s.loop.isWaiting = false

/-- `close` finds nothing queued, or the loop waiting on the queue. -/
def CleanClose (s : State ο ρ ε) : Label ο ρ ε → Prop
  | .close => s.queued = [] ∨ s.loop.isWaiting = true
  | _ => True

/-! ## Completing futures -/

@[simp] theorem done_complete (s : State ο ρ ε) (n m : Nat) (r : Except ε ρ) :
    (s.complete n r).done m = (s.done m || n == m) := by
  unfold State.complete
  by_cases hn : s.done n = true
  · by_cases hm : n = m
    · subst hm; simp [hn]
    · simp [hn, hm]
  · rw [if_neg hn]
    simp [State.done]

theorem complete_frame (s : State ο ρ ε) (n : Nat) (r : Except ε ρ) :
    ∃ outcomes, s.complete n r = { s with outcomes := outcomes } := by
  unfold State.complete
  split
  · exact ⟨s.outcomes, rfl⟩
  · exact ⟨_, rfl⟩

theorem completeAll_frame (rs : List (Nat × Except ε ρ)) (s : State ο ρ ε) :
    ∃ outcomes, s.completeAll rs = { s with outcomes := outcomes } := by
  induction rs generalizing s with
  | nil => exact ⟨s.outcomes, rfl⟩
  | cons r rs ih =>
    rcases complete_frame s r.1 r.2 with ⟨o, ho⟩
    rcases ih (s.complete r.1 r.2) with ⟨o', ho'⟩
    refine ⟨o', ?_⟩
    show (s.complete r.1 r.2).completeAll rs = _
    rw [ho', ho]

theorem done_completeAll (rs : List (Nat × Except ε ρ)) (s : State ο ρ ε) (m : Nat) :
    (s.completeAll rs).done m = (s.done m || decide (m ∈ rs.map Prod.fst)) := by
  induction rs generalizing s with
  | nil => simp [State.completeAll]
  | cons r rs ih =>
    show ((s.complete r.1 r.2).completeAll rs).done m = _
    rw [ih, done_complete, List.map_cons, Bool.eq_iff_iff]
    simp only [Bool.or_eq_true, beq_iff_eq, decide_eq_true_eq, List.mem_cons, or_assoc,
      eq_comm (a := m)]

/-! ## Looking at the queue -/

theorem futs_append (a b : List (Option (Request ο))) : futs (a ++ b) = futs a ++ futs b := by
  simp [futs]

theorem futs_taken (queue : List (Option (Request ο))) :
    (taken queue).map Request.fut = futs (queue.takeWhile Option.isSome) := by
  induction queue with
  | nil => rfl
  | cons i queue ih =>
    match i with
    | none => rfl
    | some r =>
      have htaken : taken (some r :: queue) = r :: taken queue := by simp [taken]
      have hwhile : (some r :: queue).takeWhile Option.isSome
          = some r :: queue.takeWhile Option.isSome := by simp
      rw [htaken, hwhile, List.map_cons, ih]
      rfl

/-- What the drain leaves queued: the rest after the first sentinel. -/
theorem futs_split (queue : List (Option (Request ο))) :
    futs queue = (taken queue).map Request.fut ++ futs (queue.dropWhile Option.isSome) := by
  rw [futs_taken, ← futs_append, List.takeWhile_append_dropWhile]

theorem dropWhile_head {queue rest : List (Option (Request ο))} {i : Option (Request ο)}
    (h : queue.dropWhile Option.isSome = i :: rest) : i = none := by
  have hhead := List.head?_dropWhile_not Option.isSome queue
  rw [h] at hhead
  simpa using hhead

/-- The state of a loop that has nothing in hand, about to look at the queue. -/
abbrev State.ready (s : State ο ρ ε) : State ο ρ ε := { s with loop := .waiting }

/-- A batch taken off the queue: what it leaves behind is from after `close`. -/
theorem Inv.hand {s : State ο ρ ε} (h : Inv s.ready) {batch : List (Request ο)}
    {rest : List (Option (Request ο))} {stop : Bool}
    (hfuts : futs s.queue = batch.map Request.fut ++ futs rest) (hstop : stop = s.closedAt.isSome)
    (hns : s.closedAt = none → none ∉ rest)
    (hlate : ∀ k, s.closedAt = some k → ∀ n ∈ futs rest, k ≤ n) :
    Inv { s with queue := rest, stop := stop, loop := .processing batch batch [] } where
  held_lt := by
    intro n hn
    refine h.held_lt n ?_
    show n ∈ [] ++ futs s.queue
    rw [hfuts]
    exact hn
  nodup := by
    have hnd : ([] ++ futs s.queue).Nodup := h.nodup
    rw [List.nil_append, hfuts] at hnd
    exact hnd
  queued_open := by
    intro n hn
    refine h.queued_open n ?_
    show n ∈ futs s.queue
    rw [hfuts]
    exact List.mem_append_right _ hn
  done_lt := h.done_lt
  accounted := by
    intro n hn
    rcases h.accounted n hn with hdone | hheld
    · exact Or.inl hdone
    · refine Or.inr ?_
      have hq : n ∈ [] ++ futs s.queue := hheld
      rw [List.nil_append, hfuts] at hq
      exact hq
  batchOpen := ⟨fun q hq => Or.inr (Or.inl hq), fun q hq => hq, by simp⟩
  stop_iff := hstop
  noSentinel := hns
  closed_le := h.closed_le
  late := by
    intro k hk n hn
    refine hlate k hk n ?_
    rw [futs_split rest]
    exact List.mem_append_right _ hn

theorem Inv.drain {s : State ο ρ ε} (h : Inv s.ready) : Inv s.drain := by
  unfold State.drain
  match hq : s.queue with
  | [] =>
    have heq : ({ s with
        queue := []
        loop := .waiting } : State ο ρ ε) = s.ready := by rw [← hq]
    exact heq ▸ h
  | none :: queue =>
    have hfuts : futs s.queue = futs queue := by rw [hq]; rfl
    have hclosed : s.closedAt ≠ none := fun hc => h.noSentinel hc (by rw [hq]; simp)
    exact {
      held_lt := fun n hn => h.held_lt n (by
        show n ∈ [] ++ futs s.queue
        rw [hfuts]; exact hn)
      nodup := by
        have hnd : ([] ++ futs s.queue).Nodup := h.nodup
        rw [hfuts] at hnd
        exact hnd
      queued_open := fun n hn => h.queued_open n (by
        show n ∈ futs s.queue
        rw [hfuts]; exact hn)
      done_lt := h.done_lt
      accounted := fun n hn => (h.accounted n hn).imp id fun hheld => by
        have hmem : n ∈ [] ++ futs s.queue := hheld
        rw [hfuts] at hmem
        exact hmem
      batchOpen := trivial
      stop_iff := h.stop_iff
      noSentinel := fun hc => absurd hc hclosed
      closed_le := h.closed_le
      late := by
        intro k hk n hn
        refine h.late k hk n ?_
        show n ∈ futs (s.queue.dropWhile Option.isSome)
        rw [hq, List.dropWhile_cons_of_neg (by simp)]
        show n ∈ futs queue
        rw [futs_split queue]
        exact List.mem_append_right _ hn }
  | some r :: queue =>
    have hfuts : futs s.queue = (r :: taken queue).map Request.fut
        ++ futs (queue.dropWhile Option.isSome) := by
      rw [hq, List.map_cons, List.cons_append, ← futs_split]; rfl
    have hdrop : s.queue.dropWhile Option.isSome = queue.dropWhile Option.isSome := by
      rw [hq, List.dropWhile_cons_of_pos (by simp)]
    match hrest : queue.dropWhile Option.isSome with
    | [] =>
      rw [hrest] at hfuts
      simp only [hrest]
      exact h.hand hfuts h.stop_iff (by simp) (by simp [futs])
    | i :: rest =>
      obtain rfl := dropWhile_head hrest
      rw [hrest] at hfuts hdrop
      have hsent : none ∈ s.queue :=
        List.dropWhile_sublist Option.isSome |>.subset (by rw [hdrop]; simp)
      have hclosed : s.closedAt ≠ none := fun hc => h.noSentinel hc hsent
      simp only [hrest]
      refine h.hand hfuts (Option.isSome_iff_ne_none.mpr hclosed).symm (fun hc => absurd hc hclosed) ?_
      intro k hk n hn
      refine h.late k hk n ?_
      show n ∈ futs (s.queue.dropWhile Option.isSome)
      rw [hdrop]
      exact hn

theorem Inv.loopTop {s : State ο ρ ε} (h : Inv s.ready) : Inv s.loopTop := by
  unfold State.loopTop
  split
  · exact { h with batchOpen := trivial }
  · exact h.drain

/-! ## One step -/

/-- A state in which nothing but futures of the batch have been completed. -/
theorem Inv.outcomes {s : State ο ρ ε} (h : Inv s) {rs : List (Nat × Except ε ρ)}
    (hrs : ∀ r ∈ rs, r.1 ∈ s.loop.batch) : Inv (s.completeAll rs) := by
  rcases completeAll_frame rs s with ⟨o, ho⟩
  have hdone := done_completeAll rs s
  rw [ho] at hdone ⊢
  refine { h with queued_open := ?_, done_lt := ?_, accounted := ?_, batchOpen := ?_ }
  · intro n hn
    rw [hdone, h.queued_open n hn, Bool.false_or, decide_eq_false_iff_not]
    intro hmem
    rcases List.mem_map.mp hmem with ⟨r, hr, rfl⟩
    exact (List.nodup_append.mp h.nodup).2.2 _ (hrs r hr) _ hn rfl
  · intro n hn
    rw [hdone, Bool.or_eq_true, decide_eq_true_eq] at hn
    rcases hn with hd | hmem
    · exact h.done_lt n hd
    · rcases List.mem_map.mp hmem with ⟨r, hr, rfl⟩
      exact h.held_lt r.1 (List.mem_append_left _ (hrs r hr))
  · intro n hn
    rcases h.accounted n hn with hd | hheld
    · exact Or.inl (by rw [hdone, hd, Bool.true_or])
    · exact Or.inr hheld
  · have hopen := h.batchOpen
    show State.BatchOpen _ s.loop
    match hl : s.loop with
    | .processing batch todo executed =>
      rw [hl] at hopen
      refine ⟨fun q hq => ?_, hopen.2⟩
      rcases hopen.1 q hq with hd | hrest
      · exact Or.inl ((hdone q.fut).trans (by rw [hd, Bool.true_or]))
      · exact Or.inr hrest
    | .created | .waiting | .finished => trivial

/-- A batch whose futures are all completed is left behind. -/
theorem Inv.leave {s : State ο ρ ε} (h : Inv s) (hall : ∀ n ∈ s.loop.batch, s.done n = true) :
    Inv s.ready := by
  refine { h with held_lt := ?_, nodup := ?_, accounted := ?_, batchOpen := trivial }
  · exact fun n hn => h.held_lt n (List.mem_append_right _ hn)
  · exact (List.nodup_append.mp h.nodup).2.1
  · intro n hn
    rcases h.accounted n hn with hd | hheld
    · exact Or.inl hd
    · rcases List.mem_append.mp hheld with hb | hq
      · exact Or.inl (hall n hb)
      · exact Or.inr hq

theorem init_inv : Inv (State.init : State ο ρ ε) where
  held_lt := by simp [State.held, State.init, Loop.batch, State.queued, futs]
  nodup := by simp [State.held, State.init, Loop.batch, State.queued, futs]
  queued_open := by simp [State.init, State.queued, futs]
  done_lt := by simp [State.init, State.done]
  accounted := by simp [State.init]
  batchOpen := trivial
  stop_iff := rfl
  noSentinel := by simp [State.init]
  closed_le := by simp [State.init]
  late := by simp [State.init]

theorem queued_snoc (queue : List (Option (Request ο))) (i : Option (Request ο)) :
    futs (queue ++ [i]) = futs queue ++ (i.map Request.fut).toList := by
  rw [futs_append]
  cases i <;> rfl

/-- What is queued behind the first sentinel grows only at its end. -/
theorem late_snoc {queue : List (Option (Request ο))} {i : Option (Request ο)} {n : Nat}
    (h : n ∈ futs ((queue ++ [i]).dropWhile Option.isSome)) :
    n ∈ futs (queue.dropWhile Option.isSome) ∨ ∃ r, i = some r ∧ n = r.fut := by
  have hsub : n ∈ futs (queue.dropWhile Option.isSome) ∨ n ∈ (i.map Request.fut).toList := by
    rw [List.dropWhile_append] at h
    split at h
    · have hone : n ∈ futs [i] := by
        rcases List.mem_filterMap.mp h with ⟨x, hx, hn⟩
        exact List.mem_filterMap.mpr ⟨x, (List.dropWhile_sublist _).subset hx, hn⟩
      exact Or.inr (by simpa [futs] using hone)
    · rw [queued_snoc] at h
      exact List.mem_append.mp h
  rcases hsub with hq | hi
  · exact Or.inl hq
  · match i with
    | none => simp at hi
    | some r => exact Or.inr ⟨r, rfl, by simpa using hi⟩

theorem Inv.submit {s : State ο ρ ε} (h : Inv s) (op : ο) :
    Inv { s with queue := s.queue ++ [some ⟨op, s.issued⟩], issued := s.issued + 1 } := by
  have hqueued : futs (s.queue ++ [some ⟨op, s.issued⟩]) = s.queued ++ [s.issued] := queued_snoc _ _
  have hnew : s.issued ∉ s.held := fun hmem => Nat.lt_irrefl _ (h.held_lt _ hmem)
  have hheld : ∀ n, n ∈ s.loop.batch ++ futs (s.queue ++ [some ⟨op, s.issued⟩])
      ↔ n ∈ s.held ∨ n = s.issued := by
    intro n
    rw [hqueued, ← List.append_assoc, List.mem_append, List.mem_singleton]
    rfl
  refine { h with
    held_lt := ?_, nodup := ?_, queued_open := ?_, done_lt := ?_, accounted := ?_
    noSentinel := ?_, closed_le := ?_, late := ?_ }
  · intro n hn
    show n < s.issued + 1
    rcases (hheld n).mp hn with hold | rfl
    · have hlt := h.held_lt n hold
      omega
    · omega
  · show (s.loop.batch ++ futs (s.queue ++ _)).Nodup
    rw [hqueued, ← List.append_assoc, List.nodup_append]
    refine ⟨h.nodup, List.nodup_singleton _, ?_⟩
    intro a ha b hb hab
    obtain rfl := List.mem_singleton.mp hb
    exact hnew (hab ▸ ha)
  · intro n hn
    have hmem : n ∈ futs (s.queue ++ [some ⟨op, s.issued⟩]) := hn
    rw [hqueued, List.mem_append, List.mem_singleton] at hmem
    rcases hmem with hold | rfl
    · exact h.queued_open n hold
    · show s.done s.issued = false
      by_contra hd
      exact Nat.lt_irrefl _ (h.done_lt s.issued (by simpa using hd))
  · intro n hn
    have hlt := h.done_lt n hn
    show n < s.issued + 1
    omega
  · intro n hn
    have hlt : n < s.issued + 1 := hn
    by_cases heq : n = s.issued
    · exact Or.inr ((hheld n).mpr (Or.inr heq))
    · exact (h.accounted n (by omega)).imp id fun hold => (hheld n).mpr (Or.inl hold)
  · intro hc hmem
    rcases List.mem_append.mp hmem with hold | hnew
    · exact h.noSentinel hc hold
    · simp at hnew
  · intro k hk
    have hle := h.closed_le k hk
    show k ≤ s.issued + 1
    omega
  · intro k hk n hn
    rcases late_snoc hn with hold | ⟨r, hr, rfl⟩
    · exact h.late k hk n hold
    · have hle := h.closed_le k hk
      rw [← Option.some.inj hr]
      exact hle

theorem Inv.close {s : State ο ρ ε} (h : Inv s) (hc : s.closedAt = none) :
    Inv { s with stop := true, queue := s.queue ++ [none], closedAt := some s.issued } := by
  have hqueued : futs (s.queue ++ [none]) = s.queued := by
    rw [queued_snoc]; exact List.append_nil _
  have hnosome : futs (s.queue.dropWhile Option.isSome) = [] := by
    have hdrop : s.queue.dropWhile Option.isSome = [] := by
      rw [List.dropWhile_eq_nil_iff]
      intro i hi
      by_contra hnone
      have hi' : i = none := by simpa using hnone
      exact h.noSentinel hc (hi' ▸ hi)
    rw [hdrop]; rfl
  refine { h with
    held_lt := ?_, nodup := ?_, queued_open := ?_, accounted := ?_, stop_iff := rfl
    noSentinel := ?_, closed_le := ?_, late := ?_ }
  · intro n hn
    have hmem : n ∈ s.loop.batch ++ futs (s.queue ++ [none]) := hn
    rw [hqueued] at hmem
    exact h.held_lt n hmem
  · show (s.loop.batch ++ futs (s.queue ++ [none])).Nodup
    rw [hqueued]
    exact h.nodup
  · intro n hn
    have hmem : n ∈ futs (s.queue ++ [none]) := hn
    rw [hqueued] at hmem
    exact h.queued_open n hmem
  · intro n hn
    show _ ∨ n ∈ s.loop.batch ++ futs (s.queue ++ [none])
    rw [hqueued]
    exact h.accounted n hn
  · intro hsome
    exact absurd hsome (by simp)
  · intro k hk
    obtain rfl := Option.some.inj hk
    exact Nat.le_refl _
  · intro k hk n hn
    rcases late_snoc hn with hold | ⟨r, hr, -⟩
    · rw [hnosome] at hold
      exact absurd hold (by simp)
    · exact absurd hr (by simp)

/-- The loop goes on with the same batch. -/
theorem Inv.goOn {s : State ο ρ ε} (h : Inv s) {loop : Loop ο ρ} (hb : loop.batch = s.loop.batch)
    (hopen : s.BatchOpen loop) : Inv { s with loop := loop } := by
  refine { h with held_lt := ?_, nodup := ?_, accounted := ?_, batchOpen := ?_ }
  · intro n hn
    have hmem : n ∈ loop.batch ++ s.queued := hn
    rw [hb] at hmem
    exact h.held_lt n hmem
  · show (loop.batch ++ s.queued).Nodup
    rw [hb]
    exact h.nodup
  · intro n hn
    show _ ∨ n ∈ loop.batch ++ s.queued
    rw [hb]
    exact h.accounted n hn
  · match loop with
    | .processing batch todo executed => exact hopen
    | .created | .waiting | .finished => trivial

theorem complete_loop (s : State ο ρ ε) (loop : Loop ο ρ) (n : Nat) (r : Except ε ρ) :
    { s with loop := loop }.complete n r = { s.complete n r with loop := loop } := by
  unfold State.complete
  by_cases hd : s.done n = true
  · rw [if_pos hd]
    exact if_pos hd
  · rw [if_neg hd]
    exact if_neg hd

theorem Inv.execute {s : State ο ρ ε} (h : Inv s) {batch todo : List (Request ο)} {q : Request ο}
    {executed : List (Nat × ρ)} (hl : s.loop = .processing batch (q :: todo) executed)
    (r : Except ε ρ) {t : State ο ρ ε} (hstep : step s (.execute r) = some t) : Inv t := by
  have hopen := h.batchOpen
  rw [hl] at hopen
  rcases hopen with ⟨hall, htodo, hex⟩
  have hq : q ∈ batch := htodo q List.mem_cons_self
  have hrest : ∀ q' ∈ todo, q' ∈ batch := fun q' hq' => htodo q' (List.mem_cons_of_mem q hq')
  have hbatch : ∀ (todo' : List (Request ο)) (ex' : List (Nat × ρ)),
      (Loop.processing batch todo' ex').batch = s.loop.batch := fun _ _ => by rw [hl]; rfl
  simp only [step, hl] at hstep
  match r with
  | .ok x =>
    obtain rfl := Option.some.inj hstep
    refine h.goOn (hbatch _ _) ⟨fun q' hq' => ?_, hrest, fun y hy => ?_⟩
    · rcases hall q' hq' with hd | hmem | hmem
      · exact Or.inl hd
      · rcases List.mem_cons.mp hmem with rfl | hmem
        · exact Or.inr (Or.inr (by simp))
        · exact Or.inr (Or.inl hmem)
      · refine Or.inr (Or.inr ?_)
        rw [List.map_append]
        exact List.mem_append_left _ hmem
    · rcases List.mem_append.mp hy with hy | hy
      · exact hex y hy
      · obtain rfl := List.mem_singleton.mp hy
        exact List.mem_map_of_mem hq
  | .error e =>
    obtain rfl := Option.some.inj hstep
    rw [complete_loop]
    have hone : Inv (s.completeAll [(q.fut, .error e)]) := by
      apply h.outcomes
      intro r hr
      obtain rfl := List.mem_singleton.mp hr
      rw [hl]
      exact List.mem_map_of_mem hq
    have hdone : ∀ m, (s.complete q.fut (.error e)).done m = (s.done m || q.fut == m) :=
      fun m => done_complete s q.fut m (.error e)
    rcases complete_frame s q.fut (.error e) with ⟨o, ho⟩
    have hsame : (s.complete q.fut (.error e)).loop = s.loop := by rw [ho]
    refine hone.goOn ((hbatch _ _).trans (congrArg Loop.batch hsame).symm)
      ⟨fun q' hq' => ?_, hrest, hex⟩
    show (s.complete q.fut (.error e)).done q'.fut = true ∨ _
    rw [hdone]
    rcases hall q' hq' with hd | hmem | hmem
    · exact Or.inl (by rw [hd, Bool.true_or])
    · rcases List.mem_cons.mp hmem with rfl | hmem
      · exact Or.inl (by simp)
      · exact Or.inr (Or.inl hmem)
    · exact Or.inr (Or.inr hmem)

/-- The task lines are appended, or their append raises: either way the whole batch is answered. -/
theorem Inv.record {s : State ο ρ ε} (h : Inv s) {batch : List (Request ο)}
    {executed : List (Nat × ρ)} (hl : s.loop = .processing batch [] executed)
    {rs : List (Nat × Except ε ρ)} (hsub : ∀ r ∈ rs, r.1 ∈ batch.map Request.fut)
    (hcov : ∀ x ∈ executed, x.1 ∈ rs.map Prod.fst) : Inv (s.completeAll rs).ready := by
  have hopen := h.batchOpen
  rw [hl] at hopen
  have hbatch : s.loop.batch = batch.map Request.fut := by rw [hl]; rfl
  rcases completeAll_frame rs s with ⟨o, ho⟩
  have hsame : (s.completeAll rs).loop = s.loop := by rw [ho]
  refine (h.outcomes fun r hr => hbatch ▸ hsub r hr).leave fun n hn => ?_
  rw [hsame, hbatch] at hn
  rcases List.mem_map.mp hn with ⟨q, hq, rfl⟩
  rw [done_completeAll, Bool.or_eq_true, decide_eq_true_eq]
  rcases hopen.1 q hq with hd | hmem | hmem
  · exact Or.inl hd
  · exact absurd hmem (by simp)
  · rcases List.mem_map.mp hmem with ⟨x, hx, hfut⟩
    exact Or.inr (hfut ▸ hcov x hx)

/-- The end of a batch: the futures are completed and the loop looks at the queue again. -/
theorem Inv.recorded {s : State ο ρ ε} (h : Inv s) (r : Except ε Unit) {t : State ο ρ ε}
    (hstep : step s (.record r) = some t) : s.loop.isWaiting = false
      ∧ ∃ outcomes, Inv { s with outcomes := outcomes }.ready
        ∧ t = { s with outcomes := outcomes }.loopTop := by
  simp only [step] at hstep
  split at hstep
  · next batch executed hl =>
    have hopen := h.batchOpen
    rw [hl] at hopen
    refine ⟨by rw [hl]; rfl, ?_⟩
    match r with
    | .ok () =>
      obtain rfl := Option.some.inj hstep
      rcases completeAll_frame (executed.map fun x => (x.1, (.ok x.2 : Except ε ρ))) s with ⟨o, ho⟩
      refine ⟨o, ho ▸ h.record hl ?_ ?_, by rw [ho]⟩
      · intro r hr
        rcases List.mem_map.mp hr with ⟨x, hx, rfl⟩
        exact hopen.2.2 x hx
      · intro x hx
        rw [List.map_map]
        exact List.mem_map_of_mem (f := fun x : Nat × ρ => x.1) hx
    | .error e =>
      obtain rfl := Option.some.inj hstep
      rcases completeAll_frame (batch.map fun q => (q.fut, (.error e : Except ε ρ))) s with ⟨o, ho⟩
      refine ⟨o, ho ▸ h.record hl ?_ ?_, by rw [ho]⟩
      · intro r hr
        rcases List.mem_map.mp hr with ⟨q, hq, rfl⟩
        exact List.mem_map_of_mem hq
      · intro x hx
        rw [List.map_map]
        exact hopen.2.2 x hx
  · exact absurd hstep (by simp)

theorem step_inv (s : State ο ρ ε) (l : Label ο ρ ε) (t : State ο ρ ε) (h : Inv s)
    (hstep : step s l = some t) : Inv t := by
  match l with
  | .submit op =>
    obtain rfl := Option.some.inj hstep
    exact h.submit op
  | .close =>
    simp only [step] at hstep
    split at hstep
    · next hc =>
      obtain rfl := Option.some.inj hstep
      exact h.close hc
    · exact absurd hstep (by simp)
  | .start =>
    simp only [step] at hstep
    split at hstep
    · next hl =>
      obtain rfl := Option.some.inj hstep
      exact (h.leave (by simp [hl, Loop.batch])).loopTop
    · exact absurd hstep (by simp)
  | .wake =>
    simp only [step] at hstep
    split at hstep
    · next hl =>
      split at hstep
      · exact absurd hstep (by simp)
      · obtain rfl := Option.some.inj hstep
        exact (h.leave (by simp [hl, Loop.batch])).drain
    · exact absurd hstep (by simp)
  | .execute r =>
    have hstep' := hstep
    simp only [step] at hstep'
    split at hstep'
    · next hl => exact h.execute hl r hstep
    · exact absurd hstep' (by simp)
  | .record r =>
    rcases h.recorded r hstep with ⟨-, o, ho, rfl⟩
    exact ho.loopTop

/-! ## What `close` loses -/

theorem drain_closedAt (s : State ο ρ ε) : s.drain.closedAt = s.closedAt := by
  unfold State.drain
  split
  · rfl
  · rfl
  · dsimp only
    split <;> rfl

/-- Nothing from before `close` is left in the queue by a loop that was waiting on it. -/
theorem drain_not_lost {s : State ο ρ ε} (h : Inv s.ready) (hne : s.queue ≠ []) : ¬ s.drain.Lost := by
  rintro ⟨k, n, hk, hlt, hn, hwait⟩
  rw [drain_closedAt] at hk
  have hlate : n ∈ futs (s.queue.dropWhile Option.isSome) := by
    revert hn
    unfold State.drain
    split
    · next hq => exact absurd hq hne
    · next queue hq =>
      intro hn
      rw [hq, List.dropWhile_cons_of_neg (by simp)]
      exact hn
    · next r queue hq =>
      rw [hq, List.dropWhile_cons_of_pos (by simp)]
      dsimp only
      split
      · intro hn
        exact absurd hn (by simp [State.queued, futs])
      · next i rest hrest =>
        intro hn
        rw [hrest]
        obtain rfl := dropWhile_head hrest
        exact hn
  exact absurd hlt (Nat.not_lt.mpr (h.late k hk n hlate))

/-- Looking at the queue again loses nothing more. -/
theorem loopTop_lost {s : State ο ρ ε} (h : Inv s.ready) (hw : s.loop.isWaiting = false) :
    s.loopTop.Lost ↔ s.Lost := by
  unfold State.loopTop
  split
  · constructor
    · rintro ⟨k, n, hk, hlt, hn, -⟩
      exact ⟨k, n, hk, hlt, hn, hw⟩
    · rintro ⟨k, n, hk, hlt, hn, -⟩
      exact ⟨k, n, hk, hlt, hn, rfl⟩
  · next hstop =>
    have hnone : s.closedAt = none := by
      have hiff : s.stop = s.closedAt.isSome := h.stop_iff
      rw [hiff] at hstop
      simpa using hstop
    constructor
    · rintro ⟨k, n, hk, -⟩
      rw [drain_closedAt, hnone] at hk
      exact absurd hk (by simp)
    · rintro ⟨k, n, hk, -⟩
      rw [hnone] at hk
      exact absurd hk (by simp)

theorem lost_congr {s t : State ο ρ ε} (hq : t.queue = s.queue) (hc : t.closedAt = s.closedAt)
    (hw : t.loop.isWaiting = s.loop.isWaiting) : t.Lost ↔ s.Lost := by
  unfold State.Lost State.queued
  rw [hq, hc, hw]

/-- A request that comes after `close` is none of those that `close` has to answer. -/
theorem submit_lost {s : State ο ρ ε} (h : Inv s) (op : ο) :
    State.Lost { s with queue := s.queue ++ [some ⟨op, s.issued⟩], issued := s.issued + 1 }
      ↔ s.Lost := by
  constructor
  · rintro ⟨k, n, hk, hlt, hn, hw⟩
    refine ⟨k, n, hk, hlt, ?_, hw⟩
    have hmem : n ∈ futs (s.queue ++ [some ⟨op, s.issued⟩]) := hn
    rw [queued_snoc, List.mem_append] at hmem
    rcases hmem with hold | hnew
    · exact hold
    · have hle := h.closed_le k hk
      have heq : n = s.issued := by simpa using hnew
      omega
  · rintro ⟨k, n, hk, hlt, hn, hw⟩
    refine ⟨k, n, hk, hlt, ?_, hw⟩
    show n ∈ futs (s.queue ++ [some ⟨op, s.issued⟩])
    rw [queued_snoc, List.mem_append]
    exact Or.inl hn

theorem close_lost {s : State ο ρ ε} (h : Inv s) :
    ¬ State.Lost { s with stop := true, queue := s.queue ++ [none], closedAt := some s.issued }
      ↔ s.queued = [] ∨ s.loop.isWaiting = true := by
  have hqueued : futs (s.queue ++ [none]) = s.queued := by
    rw [queued_snoc]; exact List.append_nil _
  constructor
  · intro hlost
    by_contra hbad
    simp only [not_or] at hbad
    rcases List.exists_mem_of_ne_nil _ hbad.1 with ⟨n, hn⟩
    refine hlost ⟨s.issued, n, rfl, ?_, ?_, by simpa using hbad.2⟩
    · exact h.held_lt n (List.mem_append_right _ hn)
    · show n ∈ futs (s.queue ++ [none])
      rw [hqueued]
      exact hn
  · rintro hclean ⟨k, n, hk, hlt, hn, hw⟩
    have hmem : n ∈ futs (s.queue ++ [none]) := hn
    rw [hqueued] at hmem
    rcases hclean with hnil | hwait
    · rw [hnil] at hmem
      exact absurd hmem (by simp)
    · have hw' : s.loop.isWaiting = false := hw
      rw [hwait] at hw'
      exact absurd hw' (by simp)

/-- Only a `close` that finds requests queued behind a busy loop loses a future. -/
theorem step_lost (s : State ο ρ ε) (l : Label ο ρ ε) (t : State ο ρ ε) (h : Inv s)
    (hstep : step s l = some t) : ¬ t.Lost ↔ ¬ s.Lost ∧ CleanClose s l := by
  match l with
  | .submit op =>
    obtain rfl := Option.some.inj hstep
    exact (not_congr (submit_lost h op)).trans (and_iff_left trivial).symm
  | .close =>
    simp only [step] at hstep
    split at hstep
    · next hc =>
      obtain rfl := Option.some.inj hstep
      have hnot : ¬ s.Lost := by
        rintro ⟨k, n, hk, -⟩
        rw [hc] at hk
        exact absurd hk (by simp)
      exact (close_lost h).trans (and_iff_right hnot).symm
    · exact absurd hstep (by simp)
  | .start =>
    refine Iff.trans ?_ (and_iff_left trivial).symm
    simp only [step] at hstep
    split at hstep
    · next hl =>
      obtain rfl := Option.some.inj hstep
      exact not_congr (loopTop_lost (h.leave (by simp [hl, Loop.batch])) (by rw [hl]; rfl))
    · exact absurd hstep (by simp)
  | .wake =>
    simp only [step] at hstep
    split at hstep
    · next hl =>
      split at hstep
      · exact absurd hstep (by simp)
      · next hne =>
        obtain rfl := Option.some.inj hstep
        have hnot : ¬ s.Lost := by
          rintro ⟨k, n, -, -, -, hw⟩
          rw [hl] at hw
          exact absurd hw (by simp [Loop.isWaiting])
        exact iff_of_true (drain_not_lost (h.leave (by simp [hl, Loop.batch])) hne)
          ⟨hnot, trivial⟩
    · exact absurd hstep (by simp)
  | .execute r =>
    refine Iff.trans (not_congr ?_) (and_iff_left trivial).symm
    simp only [step] at hstep
    split at hstep
    · next batch q todo executed hl =>
      match r with
      | .ok x =>
        obtain rfl := Option.some.inj hstep
        exact lost_congr rfl rfl (by rw [hl]; rfl)
      | .error e =>
        obtain rfl := Option.some.inj hstep
        rcases complete_frame { s with loop := .processing batch todo executed } q.fut
          (.error e) with ⟨o, ho⟩
        rw [ho]
        exact lost_congr rfl rfl (by rw [hl]; rfl)
    · exact absurd hstep (by simp)
  | .record r =>
    refine Iff.trans (not_congr ?_) (and_iff_left trivial).symm
    rcases h.recorded r hstep with ⟨hw, o, ho, rfl⟩
    exact (loopTop_lost ho hw).trans (lost_congr rfl rfl rfl)

/-! ## Runs -/

/-- Every future handed out before `close` is completed. -/
def State.Answered (s : State ο ρ ε) : Prop :=
  ∀ k, s.closedAt = some k → ∀ n < k, s.done n = true

/-- Once the loop has ended, what is not completed is what was lost. -/
theorem Inv.answered_iff {s : State ο ρ ε} (h : Inv s) (hfin : s.loop = .finished) :
    s.Answered ↔ ¬ s.Lost := by
  constructor
  · rintro hall ⟨k, n, hk, hlt, hn, -⟩
    have hopen := h.queued_open n hn
    rw [hall k hk n hlt] at hopen
    exact absurd hopen (by simp)
  · intro hlost k hk n hlt
    have hle := h.closed_le k hk
    rcases h.accounted n (by omega) with hd | hheld
    · exact hd
    · have hq : n ∈ s.queued := by simpa [State.held, hfin, Loop.batch] using hheld
      exact absurd ⟨k, n, hk, hlt, hq, by rw [hfin]; rfl⟩ hlost

theorem init_not_lost : ¬ (State.init : State ο ρ ε).Lost := by
  rintro ⟨k, n, hk, -⟩
  exact absurd hk (by simp [State.init])

/-- SHUTDOWN.  In every run of any number of clients with the loop and one `close`: when the loop has
ended, every future handed out before `close` is completed iff `close` found nothing queued, or the
loop waiting on the queue. -/
theorem shutdown_answers {ls : List (Label ο ρ ε)} {s : State ο ρ ε}
    (hrun : run step State.init ls = some s) (hfin : s.loop = .finished) :
    s.Answered ↔ Guarded step CleanClose State.init ls := by
  have hinv : Inv s := run_invariant step_inv init_inv hrun
  rw [hinv.answered_iff hfin, run_iff (P := fun s => ¬ s.Lost) step_inv step_lost init_inv hrun]
  exact and_iff_right init_not_lost

end Machine

/-- Two inserts are answered, the second in a batch of its own; `close` finds the loop waiting. -/
def calmClose : List (Label String Nat String) :=
  [.start, .submit "a", .wake, .submit "b", .execute (.ok 1), .record (.ok ()), .execute (.error "e"),
    .record (.ok ()), .close, .wake]

theorem shutdown_answers_calm : ∃ s, run step State.init calmClose = some s ∧ s.loop = .finished
    ∧ (s.Answered ↔ Guarded step CleanClose State.init calmClose) ∧ s.issued = 2 := by
  refine ⟨_, rfl, rfl, ?_, rfl⟩
  exact shutdown_answers rfl rfl

/-- A request is queued behind a batch in progress, and `close` is called before the batch ends. -/
def hastyClose : List (Label String Nat String) :=
  [.start, .submit "a", .wake, .submit "b", .close, .execute (.ok 1), .record (.ok ())]

/-- The loop ends and the second future, handed out before `close`, is never completed. -/
theorem shutdown_abandons : ∃ s, run step State.init hastyClose = some s ∧ s.loop = .finished
    ∧ s.closedAt = some 2 ∧ s.done 1 = false := ⟨_, rfl, rfl, rfl, rfl⟩

end Seekbase.Shutdown
