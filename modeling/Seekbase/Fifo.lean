/-
# Seekbase.Fifo — the write worker serves in order, each operation once, each caller its own.

`_worker_loop` takes what is queued into batches, and a batch completes its futures when its task lines
are in.  Neither the cut into batches nor the sentinel of `close` changes which operation runs next.

The log beside the state is what a client could write down: the operations in the order in which they
were submitted, the ones the loop has run, in the order in which it ran them, with what they came to, and
the batches that have ended, with what the task log made of their lines.

* `logged`           — a step, with the log it leaves;
* `Ordered`          — what was asked is what was run and what is still to run, in this order;
* `Log.Explains`     — a future has what its own operation came to, once its own batch is in the log;
* `served_in_order`  — in every run, and no future is ever completed by what another operation came to.
-/
import Seekbase.Shutdown

namespace Seekbase.Shutdown

open Transition

section Machine

variable {ο ρ ε : Type}

structure Log (ο ρ ε : Type) where
  asked : List (Request ο)
  ran : List (Request ο × Except ε ρ)
  /-- The batches that have ended, and what the task log raised where it did. -/
  recorded : List (List (Request ο) × Except ε Unit)

def Log.empty : Log ο ρ ε := ⟨[], [], []⟩

def Log.note (g : Log ο ρ ε) (s : State ο ρ ε) : Label ο ρ ε → Log ο ρ ε
  | .submit op => { g with asked := g.asked ++ [⟨op, s.issued⟩] }
  | .execute r =>
    match s.loop with
    | .processing _ (q :: _) _ => { g with ran := g.ran ++ [(q, r)] }
    | _ => g
  | .record r =>
    match s.loop with
    | .processing batch _ _ => { g with recorded := g.recorded ++ [(batch, r)] }
    | _ => g
  | _ => g

/-- A step of the queue and the loop, written down. -/
def logged (x : State ο ρ ε × Log ο ρ ε) (l : Label ο ρ ε) : Option (State ο ρ ε × Log ο ρ ε) :=
  (step x.1 l).map fun t => (t, x.2.note x.1 l)

/-- The operations of the batch. -/
def Loop.requests : Loop ο ρ → List (Request ο)
  | .processing batch _ _ => batch
  | _ => []

/-- The operations of the batch that are still to run. -/
def Loop.todo : Loop ο ρ → List (Request ο)
  | .processing _ todo _ => todo
  | _ => []

/-- The results that wait for the task lines. -/
def Loop.executed : Loop ο ρ → List (Nat × ρ)
  | .processing _ _ executed => executed
  | _ => []

/-- What is queued, the sentinel apart. -/
def State.waiting (s : State ο ρ ε) : List (Request ο) := s.queue.filterMap id

/-- The operations that are still to run, the batch first. -/
def State.pending (s : State ο ρ ε) : List (Request ο) := s.loop.todo ++ s.waiting

/-- What the future of an operation is completed with: its result, once the lines of its own batch are
in the task log; its own error; or, for one that ran, the error its own batch met in the task log. -/
inductive Log.Explains (g : Log ο ρ ε) (q : Request ο) : Except ε ρ → Prop
  | done (x : ρ) (batch : List (Request ο)) (hran : (q, .ok x) ∈ g.ran)
    (hbatch : (batch, .ok ()) ∈ g.recorded) (hq : q ∈ batch) : Explains g q (.ok x)
  | failed (e : ε) (hran : (q, .error e) ∈ g.ran) : Explains g q (.error e)
  | unlogged (e : ε) (x : ρ) (batch : List (Request ο)) (hran : (q, .ok x) ∈ g.ran)
    (hbatch : (batch, .error e) ∈ g.recorded) (hq : q ∈ batch) : Explains g q (.error e)

structure Ordered (s : State ο ρ ε) (g : Log ο ρ ε) : Prop where
  asked : g.asked = g.ran.map Prod.fst ++ s.pending
  /-- The batches are cut from what was asked, one after the other. -/
  cut : g.asked = g.recorded.flatMap Prod.fst ++ (s.loop.requests ++ s.waiting)
  numbers : g.asked.map Request.fut = List.range s.issued
  once : (s.outcomes.map Prod.fst).Nodup
  own : ∀ x ∈ s.outcomes, ∃ q : Request ο, q.fut = x.1 ∧ g.Explains q x.2
  executed : ∀ y ∈ s.loop.executed, ∃ q ∈ s.loop.requests, (q, .ok y.2) ∈ g.ran ∧ q.fut = y.1

variable {s t : State ο ρ ε} {g : Log ο ρ ε}

/-! ## Looking at the queue -/

theorem taken_append (queue : List (Option (Request ο))) :
    taken queue ++ (queue.dropWhile Option.isSome).filterMap id = queue.filterMap id := by
  rw [taken, ← List.filterMap_append, List.takeWhile_append_dropWhile]

/-- A batch is taken off the front of what is queued. -/
theorem drain_pending (s : State ο ρ ε) : s.drain.pending = s.waiting := by
  unfold State.drain
  split
  · next h => rw [State.waiting, h]; rfl
  · next queue h => rw [State.waiting, h]; rfl
  · next r queue h =>
    rw [State.waiting, h]
    show _ = r :: queue.filterMap id
    rw [← taken_append queue]
    dsimp only
    split
    · next hrest =>
      rw [hrest]
      rfl
    · next i rest hrest =>
      obtain rfl := dropWhile_head hrest
      rw [hrest]
      rfl

theorem drain_frame (s : State ο ρ ε) : s.drain.loop.executed = [] ∧ s.drain.outcomes = s.outcomes
    ∧ s.drain.issued = s.issued ∧ s.drain.loop.requests = s.drain.loop.todo := by
  unfold State.drain
  split
  · exact ⟨rfl, rfl, rfl, rfl⟩
  · exact ⟨rfl, rfl, rfl, rfl⟩
  · dsimp only
    split <;> exact ⟨rfl, rfl, rfl, rfl⟩

/-- The loop has nothing in hand when it looks at the queue. -/
theorem Ordered.drain (h : Ordered s g) (hloop : s.loop.requests = []) (htodo : s.loop.todo = []) :
    Ordered s.drain g := by
  obtain ⟨hex, hout, hissued, hreq⟩ := drain_frame s
  refine ⟨?_, ?_, hissued ▸ h.numbers, hout ▸ h.once, hout ▸ h.own, ?_⟩
  · rw [drain_pending, h.asked, State.pending, htodo]
    rfl
  · rw [hreq, ← State.pending, drain_pending, h.cut, hloop]
    rfl
  · rw [hex]
    intro y hy
    cases hy

theorem Ordered.loopTop (h : Ordered s g) (hloop : s.loop.requests = []) (htodo : s.loop.todo = []) :
    Ordered s.loopTop g := by
  unfold State.loopTop
  split
  · refine ⟨?_, ?_, h.numbers, h.once, h.own, by rintro y ⟨⟩⟩
    · rw [h.asked, State.pending, htodo]
      rfl
    · rw [h.cut, hloop]
      rfl
  · exact h.drain hloop htodo

/-! ## Completing futures -/

theorem Ordered.complete (h : Ordered s g) {q : Request ο} {r : Except ε ρ}
    (hr : s.done q.fut = false → g.Explains q r) : Ordered (s.complete q.fut r) g := by
  unfold State.complete
  split
  · exact h
  · next hopen =>
    refine ⟨h.asked, h.cut, h.numbers, ?_, fun x hx => ?_, h.executed⟩
    · rw [List.map_append, List.nodup_append]
      refine ⟨h.once, List.nodup_singleton _, ?_⟩
      rintro a ha _ hb rfl
      obtain rfl := List.mem_singleton.mp hb
      obtain ⟨x, hx, hfut⟩ := List.mem_map.mp ha
      exact hopen (List.any_eq_true.mpr ⟨x, hx, beq_iff_eq.mpr hfut⟩)
    · rcases List.mem_append.mp hx with hx | hx
      · exact h.own x hx
      · rw [List.mem_singleton.mp hx]
        exact ⟨q, rfl, hr (by simpa using hopen)⟩

/-- What has been completed before stays as it is. -/
theorem Ordered.completeAll (h : Ordered s g) {rs : List (Nat × Except ε ρ)}
    (hrs : ∀ x ∈ rs, ∃ q : Request ο, q.fut = x.1 ∧ (s.done q.fut = false → g.Explains q x.2)) :
    Ordered (s.completeAll rs) g := by
  induction rs generalizing s with
  | nil => exact h
  | cons r rs ih =>
    obtain ⟨q, hfut, hq⟩ := hrs r List.mem_cons_self
    have hone : Ordered (s.complete r.1 r.2) g := hfut ▸ h.complete hq
    refine ih hone fun x hx => ?_
    obtain ⟨p, hp, hexplains⟩ := hrs x (List.mem_cons_of_mem r hx)
    refine ⟨p, hp, fun hopen => hexplains ?_⟩
    rw [done_complete] at hopen
    exact (Bool.or_eq_false_iff.mp hopen).1

theorem Log.Explains.mono {g' : Log ο ρ ε} {q : Request ο} {r : Except ε ρ} (h : g.Explains q r)
    (hran : g.ran ⊆ g'.ran) (hrecorded : g.recorded ⊆ g'.recorded) : g'.Explains q r := by
  cases h with
  | done x batch hq hbatch hmem => exact .done x batch (hran hq) (hrecorded hbatch) hmem
  | failed e hq => exact .failed e (hran hq)
  | unlogged e x batch hq hbatch hmem => exact .unlogged e x batch (hran hq) (hrecorded hbatch) hmem

/-- The next operation of the batch has run. -/
theorem Ordered.ran (h : Ordered s g) {batch todo : List (Request ο)} {q : Request ο}
    {executed more : List (Nat × ρ)} (hl : s.loop = .processing batch (q :: todo) executed)
    (hq : q ∈ batch) {r : Except ε ρ} (hmore : ∀ y ∈ more, y.1 = q.fut ∧ r = .ok y.2) :
    Ordered { s with loop := .processing batch todo (executed ++ more) }
      { g with ran := g.ran ++ [(q, r)] } := by
  have hsub : g.ran ⊆ g.ran ++ [(q, r)] := List.subset_append_left _ _
  have hcut := h.cut
  rw [hl] at hcut
  refine ⟨?_, hcut, h.numbers, h.once, fun x hx => ?_, fun y hy => ?_⟩
  · rw [h.asked, State.pending, hl, List.map_append, List.append_assoc]
    rfl
  · obtain ⟨p, hfut, hp⟩ := h.own x hx
    exact ⟨p, hfut, hp.mono hsub (List.Subset.refl _)⟩
  · -- what had been executed before, or what has been now
    rcases List.mem_append.mp hy with hy | hy
    · have hex := h.executed
      rw [hl] at hex
      obtain ⟨p, hp, hpran, hfut⟩ := hex y hy
      exact ⟨p, hp, hsub hpran, hfut⟩
    · obtain ⟨hfut, rfl⟩ := hmore y hy
      exact ⟨q, hq, List.mem_append_right _ (List.mem_singleton.mpr rfl), hfut.symm⟩

/-! ## The end of a batch -/

/-- The batch has ended; its futures are about to be completed. -/
theorem Ordered.leave (h : Ordered s g) {batch : List (Request ο)} {executed : List (Nat × ρ)}
    (hl : s.loop = .processing batch [] executed) (r : Except ε Unit) :
    Ordered { s with loop := .waiting } { g with recorded := g.recorded ++ [(batch, r)] } := by
  refine ⟨?_, ?_, h.numbers, h.once, fun x hx => ?_, by rintro y ⟨⟩⟩
  · show g.asked = g.ran.map Prod.fst ++ ([] ++ s.waiting)
    rw [h.asked, State.pending, hl]
    rfl
  · show g.asked = (g.recorded ++ [(batch, r)]).flatMap Prod.fst ++ ([] ++ s.waiting)
    rw [h.cut, hl, List.flatMap_append, List.append_assoc]
    simp [Loop.requests]
  · obtain ⟨p, hfut, hp⟩ := h.own x hx
    exact ⟨p, hfut, hp.mono (List.Subset.refl _) (List.subset_append_left _ _)⟩

theorem completeAll_loop (rs : List (Nat × Except ε ρ)) (s : State ο ρ ε) (loop : Loop ο ρ) :
    { s with loop := loop }.completeAll rs = { s.completeAll rs with loop := loop } := by
  induction rs generalizing s with
  | nil => rfl
  | cons r rs ih =>
    show ({ s with loop := loop }.complete r.1 r.2).completeAll rs = _
    rw [complete_loop, ih]
    rfl

/-- Where the loop goes does not depend on where it was. -/
theorem loopTop_loop (s : State ο ρ ε) (loop : Loop ο ρ) :
    ({ s with loop := loop } : State ο ρ ε).loopTop = s.loopTop := by
  obtain ⟨queue, stop, was, issued, closedAt, outcomes⟩ := s
  unfold State.loopTop State.drain
  rfl

/-- Its futures are completed, and the loop goes on. -/
theorem Ordered.settle (h : Ordered s g) {batch : List (Request ο)} {executed : List (Nat × ρ)}
    (hl : s.loop = .processing batch [] executed) (r : Except ε Unit) {rs : List (Nat × Except ε ρ)}
    (hrs : ∀ x ∈ rs, ∃ q : Request ο, q.fut = x.1 ∧ (s.done q.fut = false →
      Log.Explains { g with recorded := g.recorded ++ [(batch, r)] } q x.2)) :
    Ordered (s.completeAll rs).loopTop { g with recorded := g.recorded ++ [(batch, r)] } := by
  have hall := (h.leave hl r).completeAll hrs
  rw [completeAll_loop] at hall
  rw [← loopTop_loop _ .waiting]
  exact hall.loopTop rfl rfl

/-- In a batch that has run, an operation whose future is still open has its result. -/
theorem Ordered.result (h : Ordered s g) (hinv : Inv s) {batch : List (Request ο)}
    {executed : List (Nat × ρ)} (hl : s.loop = .processing batch [] executed) {q : Request ο}
    (hq : q ∈ batch) (hopen : s.done q.fut = false) : ∃ x, (q, .ok x) ∈ g.ran := by
  have hbatch := hinv.batchOpen
  have hnodup := (List.nodup_append.mp hinv.nodup).1
  have hex := h.executed
  rw [hl] at hbatch hnodup hex
  rcases hbatch.1 q hq with hdone | htodo | hmem
  · rw [hopen] at hdone
    cases hdone
  · cases htodo
  · obtain ⟨y, hy, hyfut⟩ := List.mem_map.mp hmem
    obtain ⟨p, hp, hran, hfut⟩ := hex y hy
    obtain rfl := List.inj_on_of_nodup_map hnodup hp hq (hfut.trans hyfut)
    exact ⟨y.2, hran⟩

/-! ## Every step -/

theorem step_ordered {l : Label ο ρ ε} (hinv : Inv s) (h : Ordered s g) (hstep : step s l = some t) :
    Ordered t (g.note s l) := by
  cases l with
  | submit op =>
    obtain rfl := Option.some.inj hstep
    have hwaiting : (s.queue ++ [some (⟨op, s.issued⟩ : Request ο)]).filterMap id
        = s.waiting ++ [⟨op, s.issued⟩] := by
      rw [List.filterMap_append]
      rfl
    refine ⟨?_, ?_, ?_, h.once, fun x hx => ?_, h.executed⟩
    · show g.asked ++ [(⟨op, s.issued⟩ : Request ο)] = g.ran.map Prod.fst
        ++ (s.loop.todo ++ (s.queue ++ [some (⟨op, s.issued⟩ : Request ο)]).filterMap id)
      rw [hwaiting, h.asked, State.pending, List.append_assoc, List.append_assoc]
    · show g.asked ++ [(⟨op, s.issued⟩ : Request ο)] = g.recorded.flatMap Prod.fst
        ++ (s.loop.requests ++ (s.queue ++ [some (⟨op, s.issued⟩ : Request ο)]).filterMap id)
      rw [hwaiting, h.cut, List.append_assoc, List.append_assoc]
    · show (g.asked ++ [(⟨op, s.issued⟩ : Request ο)]).map Request.fut = _
      rw [List.map_append, h.numbers, List.range_succ]
      rfl
    · obtain ⟨q, hfut, hq⟩ := h.own x hx
      exact ⟨q, hfut, hq.mono (List.Subset.refl _) (List.Subset.refl _)⟩
  | close =>
    simp only [step] at hstep
    split at hstep
    · obtain rfl := Option.some.inj hstep
      have hwaiting : (s.queue ++ [none]).filterMap id = s.waiting := by
        rw [List.filterMap_append]
        exact List.append_nil _
      refine ⟨?_, ?_, h.numbers, h.once, h.own, h.executed⟩
      · show g.asked = g.ran.map Prod.fst ++ (s.loop.todo ++ (s.queue ++ [none]).filterMap id)
        rw [hwaiting]
        exact h.asked
      · show g.asked = g.recorded.flatMap Prod.fst
          ++ (s.loop.requests ++ (s.queue ++ [none]).filterMap id)
        rw [hwaiting]
        exact h.cut
    · cases hstep
  | start =>
    simp only [step] at hstep
    split at hstep
    · next hl =>
      obtain rfl := Option.some.inj hstep
      exact h.loopTop (by rw [hl]; rfl) (by rw [hl]; rfl)
    · cases hstep
  | wake =>
    simp only [step] at hstep
    split at hstep
    · next hl =>
      split at hstep
      · cases hstep
      · obtain rfl := Option.some.inj hstep
        exact h.drain (by rw [hl]; rfl) (by rw [hl]; rfl)
    · cases hstep
  | execute r =>
    simp only [step] at hstep
    split at hstep
    · next batch q todo executed hl =>
      have hnote : g.note s (.execute r) = { g with ran := g.ran ++ [(q, r)] } := by
        simp only [Log.note, hl]
      have hopen := hinv.batchOpen
      rw [hl] at hopen
      have hq : q ∈ batch := hopen.2.1 q List.mem_cons_self
      rw [hnote]
      cases r with
      | ok x =>
        obtain rfl := Option.some.inj hstep
        apply h.ran hl hq
        intro y hy
        rw [List.mem_singleton.mp hy]
        exact ⟨rfl, rfl⟩
      | error e =>
        obtain rfl := Option.some.inj hstep
        have hran : Ordered { s with loop := .processing batch todo (executed ++ []) }
            { g with ran := g.ran ++ [(q, .error e)] } := h.ran hl hq (by rintro y ⟨⟩)
        rw [List.append_nil] at hran
        apply hran.complete
        intro _
        exact .failed e (List.mem_append_right _ (List.mem_singleton.mpr rfl))
    · cases hstep
  | record r =>
    simp only [step] at hstep
    split at hstep
    · next batch executed hl =>
      have hnote : g.note s (.record r) = { g with recorded := g.recorded ++ [(batch, r)] } := by
        simp only [Log.note, hl]
      have hlast : (batch, r) ∈ g.recorded ++ [(batch, r)] :=
        List.mem_append_right _ (List.mem_singleton.mpr rfl)
      rw [hnote]
      cases r with
      | ok u =>
        obtain rfl := Option.some.inj hstep
        apply h.settle hl
        intro x hx
        obtain ⟨y, hy, rfl⟩ := List.mem_map.mp hx
        have hex := h.executed
        rw [hl] at hex
        obtain ⟨q, hq, hran, hfut⟩ := hex y hy
        exact ⟨q, hfut, fun _ => .done y.2 batch hran hlast hq⟩
      | error e =>
        obtain rfl := Option.some.inj hstep
        apply h.settle hl
        intro x hx
        obtain ⟨q, hq, rfl⟩ := List.mem_map.mp hx
        refine ⟨q, rfl, fun hopen => ?_⟩
        -- an operation that was refused has its outcome by now
        obtain ⟨v, hran⟩ := h.result hinv hl hq hopen
        exact .unlogged e v batch hran hlast hq
    · cases hstep

theorem run_ordered {ls : List (Label ο ρ ε)}
    (hrun : run logged (State.init, Log.empty) ls = some (t, g)) : Ordered t g := by
  have hall : ∀ x : State ο ρ ε × Log ο ρ ε, run logged (State.init, Log.empty) ls = some x →
      Inv x.1 ∧ Ordered x.1 x.2 := by
    intro x hx
    refine run_invariant (I := fun y : State ο ρ ε × Log ο ρ ε => Inv y.1 ∧ Ordered y.1 y.2) ?_ ?_ hx
    · rintro ⟨s, g⟩ l y ⟨hinv, hs⟩ hstep
      obtain ⟨t, ht, rfl⟩ := Option.map_eq_some_iff.mp hstep
      exact ⟨step_inv s l t hinv ht, step_ordered hinv hs ht⟩
    · exact ⟨init_inv, rfl, rfl, rfl, List.nodup_nil, by rintro x ⟨⟩, by rintro y ⟨⟩⟩
  exact (hall (t, g) hrun).2

/-- For any interleaving of submissions, batches and one `close`: the operations the loop has run are the
first of those that were submitted, in the order in which they were, and what is left follows in that
order; so do the batches, each operation in one.  Every future is completed at most once, and by what its
own operation has come to: with the result once the task log has the lines of its batch, with its own
error, or with the error that the task log raised for its batch. -/
theorem served_in_order {ls : List (Label ο ρ ε)}
    (hrun : run logged (State.init, Log.empty) ls = some (t, g)) :
    g.asked = g.ran.map Prod.fst ++ t.pending
      ∧ g.asked = g.recorded.flatMap Prod.fst ++ (t.loop.requests ++ t.waiting)
      ∧ (∀ n (q : Request ο), g.asked[n]? = some q → q.fut = n)
      ∧ (t.outcomes.map Prod.fst).Nodup
      ∧ (∀ n r, (n, r) ∈ t.outcomes → ∃ q, g.asked[n]? = some q ∧ g.Explains q r)
      ∧ ∀ q r, (q, r) ∈ g.ran → g.ran[q.fut]? = some (q, r) := by
  have h := run_ordered hrun
  have hnumber : ∀ n (q : Request ο), g.asked[n]? = some q → q.fut = n := by
    intro n q hq
    have hfut : (g.asked.map Request.fut)[n]? = some q.fut := by rw [List.getElem?_map, hq]; rfl
    rw [h.numbers] at hfut
    obtain ⟨hlt, heq⟩ := List.getElem?_eq_some_iff.mp hfut
    rw [← heq, List.getElem_range]
  have hplace : ∀ (q : Request ο) r, (q, r) ∈ g.ran → g.ran[q.fut]? = some (q, r)
      ∧ g.asked[q.fut]? = some q := by
    intro q r hq
    obtain ⟨i, hi⟩ := List.getElem?_of_mem hq
    have hasked : g.asked[i]? = some q := by
      have hlt : i < (g.ran.map Prod.fst).length := by
        rw [List.length_map]
        exact (List.getElem?_eq_some_iff.mp hi).1
      rw [h.asked, List.getElem?_append_left hlt, List.getElem?_map, hi]
      rfl
    rw [hnumber i q hasked]
    exact ⟨hi, hasked⟩
  refine ⟨h.asked, h.cut, hnumber, h.once, fun n r hr => ?_, fun q r hq => (hplace q r hq).1⟩
  obtain ⟨q, rfl, hexplains⟩ := h.own _ hr
  refine ⟨q, ?_, hexplains⟩
  -- an outcome is one of an operation that has run
  cases hexplains with
  | done x batch hran | unlogged e x batch hran => exact (hplace q _ hran).2
  | failed e hran => exact (hplace q _ hran).2

end Machine

/-- Three operations in two batches.  One is refused, and the lines of its batch do not get into the task
log, which is what the third is told. -/
def threeOps : List (Label String Nat String) :=
  [.start, .submit "a", .wake, .submit "b", .submit "c", .execute (.ok 1), .record (.ok ()),
    .execute (.error "no"), .execute (.ok 3), .record (.error "disk")]

theorem served_in_order_three : ∃ t g,
    run logged ((State.init, Log.empty) : State String Nat String × _) threeOps = some (t, g)
      ∧ g.asked = g.ran.map Prod.fst ++ t.pending ∧ g.ran.length = 3
      ∧ (∃ q, g.asked[0]? = some q ∧ g.Explains q (.ok 1))
      ∧ ∃ q, g.asked[2]? = some q ∧ g.Explains q (.error "disk") := by
  have hrun : ∃ t g, run logged ((State.init, Log.empty) : State String Nat String × _) threeOps
      = some (t, g) ∧ g.ran.length = 3
      ∧ t.outcomes = [(0, .ok 1), (1, .error "no"), (2, .error "disk")] := ⟨_, _, rfl, rfl, rfl⟩
  obtain ⟨t, g, hrun, hlen, houtcomes⟩ := hrun
  obtain ⟨hasked, -, -, -, hown, -⟩ := served_in_order hrun
  exact ⟨t, g, hrun, hasked, hlen, hown 0 _ (by simp [houtcomes]), hown 2 _ (by simp [houtcomes])⟩

end Seekbase.Shutdown
