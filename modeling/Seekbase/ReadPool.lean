/-
# Seekbase.ReadPool — the cursors, the threads, and what a read sees from its first statement to its last.

`ReadPool.run` hands a function to a pool of threads.  On its thread it takes a cursor off `_free`, runs
one statement after another on it, and puts it back whatever has happened; meanwhile the other threads
run theirs, and the writer commits.  `close` interrupts every cursor and joins the threads.

A step is the beginning or the end of one statement, or what a thread, the event loop or the writer does
between two.  What a statement does to its cursor is a parameter, `Program`.  An interrupt reaches the
statement that runs on the cursor AT THAT MOMENT, and no later one.

* `Turn`, `Moves` — what a thread does by itself, and a step by what it does;
* `Inv`           — every cursor is in one place and every read is in one place, and where a read is
                    follows from its own statements alone;
* `one_place`     — so a thread that asks for a cursor finds one;
* `joins_iff`     — which reads keep `close` from returning.
-/
import Mathlib.Data.List.Perm.Basic
import Seekbase.Lib.Run

namespace Seekbase.ReadPool

open Transition

/-- What is run on a borrowed cursor: where a read begins, and one statement after another. -/
structure Program (κ ω γ π ρ : Type) where
  start : κ → π
  /-- What a statement leaves on the cursor, and what there is to be done after it, or the answer. -/
  statement : ω → γ → π → γ × (π ⊕ ρ)
  /-- Whether it is DuckDB that runs it, which an interrupt of the cursor reaches. -/
  heeds : π → Bool

section Machine

variable {κ ω γ π ρ ε : Type}

/-- The next statement, if there is one, with the state there is then. -/
def Program.next (P : Program κ ω γ π ρ) (x : γ × (π ⊕ ρ)) (w : ω) : γ × (π ⊕ ρ) :=
  match x.2 with
  | .inl p => P.statement w x.1 p
  | .inr _ => x

/-- A read on its own, with the states its statements find. -/
def Program.follow (P : Program κ ω γ π ρ) (c : γ) (p : π) (ws : List ω) : γ × (π ⊕ ρ) :=
  ws.foldl P.next (c, .inl p)

/-! ## The pool -/

/-- What a thread of the pool is at; a cursor is told by its number. -/
inductive Place (γ π ρ ε : Type) where
  | idle
  /-- In `self._free.get()`. -/
  | waiting (job : Nat)
  /-- Between two statements. -/
  | ready (job : Nat) (cur : Nat × γ) (p : π)
  /-- In a statement; `flagged` when it has been interrupted. -/
  | inside (job : Nat) (cur : Nat × γ) (p : π) (flagged : Bool)
  /-- In the `finally`. -/
  | leaving (job : Nat) (cur : Nat × γ) (r : Except ε ρ)

inductive Stage where
  | opened
  /-- `close` has these cursors still to interrupt, and then the threads to join. -/
  | closing (todo : List Nat)
  | closed
  deriving DecidableEq

structure Pool (κ ω γ π ρ ε : Type) where
  /-- `_free`. -/
  free : List (Nat × γ)
  /-- The reads no thread has taken yet. -/
  queued : List Nat
  threads : List (Place γ π ρ ε)
  /-- Every read that was asked for, and how many states there had been before. -/
  requests : List (κ × Nat)
  results : List (Nat × Except ε ρ)
  cancelled : List Nat
  /-- The states the writer has gone through, and the one there is. -/
  past : List ω
  now : ω
  stage : Stage

/-- `create`: as many threads as cursors. -/
def Pool.create (workers : Nat) (c : γ) (w : ω) : Pool κ ω γ π ρ ε where
  free := (List.range workers).map fun i => (i, c)
  queued := []
  threads := List.replicate workers .idle
  requests := []
  results := []
  cancelled := []
  past := []
  now := w
  stage := .opened

inductive Label (κ ω γ ε : Type) where
  | submit (k : κ)
  /-- The caller's task is cancelled before a thread has taken the read. -/
  | cancel (n : Nat)
  | write (w : ω)
  | start (j : Nat)
  | borrow (j : Nat)
  | issue (j : Nat)
  | finish (j : Nat)
  /-- The statement fails, by an interrupt or by itself, and leaves the cursor somehow. -/
  | fail (j : Nat) (c : γ) (e : ε)
  | giveBack (j : Nat)
  | close
  | interrupt
  | join

/-- `c.interrupt()`. -/
def Place.flag (P : Program κ ω γ π ρ) (i : Nat) : Place γ π ρ ε → Place γ π ρ ε
  | .inside n cur p flagged => .inside n cur p (flagged || (cur.1 == i && P.heeds p))
  | pl => pl

/-- What a thread has after its statement. -/
def Place.after (n i : Nat) : γ × (π ⊕ ρ) → Place γ π ρ ε
  | (c, .inl p) => .ready n (i, c) p
  | (c, .inr r) => .leaving n (i, c) (.ok r)

def Place.isIdle : Place γ π ρ ε → Bool
  | .idle => true
  | _ => false

def step (P : Program κ ω γ π ρ) (s : Pool κ ω γ π ρ ε) :
    Label κ ω γ ε → Option (Pool κ ω γ π ρ ε)
  | .submit k =>
    match s.stage with
    | .opened => some { s with
        queued := s.queued ++ [s.requests.length]
        requests := s.requests ++ [(k, s.past.length)] }
    -- `cannot schedule new futures after shutdown`
    | _ => none
  | .cancel n =>
    match s.stage with
    | .opened =>
      if n ∈ s.queued then
        some { s with
          queued := s.queued.erase n
          cancelled := s.cancelled ++ [n] }
      else none
    -- `close` does not give the event loop back
    | _ => none
  | .write w => some { s with
      past := s.past ++ [s.now]
      now := w }
  | .start j =>
    match s.threads[j]?, s.queued with
    | some .idle, n :: rest => some { s with
        queued := rest
        threads := s.threads.set j (.waiting n) }
    | _, _ => none
  | .borrow j =>
    match s.threads[j]?, s.free with
    | some (.waiting n), cur :: rest =>
      match s.requests[n]? with
      | some (k, _) => some { s with
          free := rest
          threads := s.threads.set j (.ready n cur (P.start k)) }
      | none => none
    | _, _ => none
  | .issue j =>
    match s.threads[j]? with
    | some (.ready n cur p) => some { s with threads := s.threads.set j (.inside n cur p false) }
    | _ => none
  | .finish j =>
    match s.threads[j]? with
    | some (.inside n cur p false) =>
      some { s with threads := s.threads.set j (.after n cur.1 (P.statement s.now cur.2 p)) }
    | _ => none
  | .fail j c e =>
    match s.threads[j]? with
    | some (.inside n cur _ _) =>
      some { s with threads := s.threads.set j (.leaving n (cur.1, c) (.error e)) }
    | _ => none
  | .giveBack j =>
    match s.threads[j]? with
    | some (.leaving n cur r) => some { s with
        free := s.free ++ [cur]
        threads := s.threads.set j .idle
        results := s.results ++ [(n, r)] }
    | _ => none
  | .close =>
    match s.stage with
    | .opened => some { s with stage := .closing (List.range s.threads.length) }
    | _ => none
  | .interrupt =>
    match s.stage with
    | .closing (i :: todo) => some { s with
        threads := s.threads.map (Place.flag P i)
        stage := .closing todo }
    | _ => none
  | .join =>
    match s.stage with
    | .closing [] =>
      if s.queued = [] ∧ s.threads.all Place.isIdle then some { s with stage := .closed } else none
    | _ => none

/-- What a thread does by itself: it goes from one place to another, and takes from or adds to what the
threads share. -/
inductive Turn (P : Program κ ω γ π ρ) (s : Pool κ ω γ π ρ ε) :
    Label κ ω γ ε → Nat → Place γ π ρ ε → Place γ π ρ ε → Pool κ ω γ π ρ ε → Prop
  | start {j n : Nat} {rest : List Nat} (hq : s.queued = n :: rest) :
    Turn P s (.start j) j .idle (.waiting n) { s with queued := rest }
  | borrow {j n since : Nat} {cur : Nat × γ} {rest : List (Nat × γ)} {k : κ}
    (hf : s.free = cur :: rest) (hk : s.requests[n]? = some (k, since)) :
    Turn P s (.borrow j) j (.waiting n) (.ready n cur (P.start k)) { s with free := rest }
  | issue {j n : Nat} {cur : Nat × γ} {p : π} :
    Turn P s (.issue j) j (.ready n cur p) (.inside n cur p false) s
  | finish {j n : Nat} {cur : Nat × γ} {p : π} :
    Turn P s (.finish j) j (.inside n cur p false) (.after n cur.1 (P.statement s.now cur.2 p)) s
  | fail {j n : Nat} {cur : Nat × γ} {p : π} {flagged : Bool} {c : γ} {e : ε} :
    Turn P s (.fail j c e) j (.inside n cur p flagged) (.leaving n (cur.1, c) (.error e)) s
  | giveBack {j n : Nat} {cur : Nat × γ} {r : Except ε ρ} :
    Turn P s (.giveBack j) j (.leaving n cur r) .idle { s with
      free := s.free ++ [cur]
      results := s.results ++ [(n, r)] }

/-- A step by what it does. -/
inductive Moves (P : Program κ ω γ π ρ) (s : Pool κ ω γ π ρ ε) :
    Label κ ω γ ε → Pool κ ω γ π ρ ε → Prop
  | submit {k : κ} (hs : s.stage = .opened) : Moves P s (.submit k) { s with
      queued := s.queued ++ [s.requests.length]
      requests := s.requests ++ [(k, s.past.length)] }
  | cancel {n : Nat} (hs : s.stage = .opened) (hn : n ∈ s.queued) : Moves P s (.cancel n) { s with
      queued := s.queued.erase n
      cancelled := s.cancelled ++ [n] }
  | write {w : ω} : Moves P s (.write w) { s with
      past := s.past ++ [s.now]
      now := w }
  | turn {l : Label κ ω γ ε} {j : Nat} {x y : Place γ π ρ ε} {t : Pool κ ω γ π ρ ε}
    (hx : s.threads[j]? = some x) (ht : Turn P s l j x y t) :
    Moves P s l { t with threads := s.threads.set j y }
  | close (hs : s.stage = .opened) :
    Moves P s .close { s with stage := .closing (List.range s.threads.length) }
  | interrupt {i : Nat} {todo : List Nat} (hs : s.stage = .closing (i :: todo)) :
    Moves P s .interrupt { s with
      threads := s.threads.map (Place.flag P i)
      stage := .closing todo }
  | join (hs : s.stage = .closing []) (hq : s.queued = []) (ht : s.threads.all Place.isIdle = true) :
    Moves P s .join { s with stage := .closed }

variable {P : Program κ ω γ π ρ} {s t : Pool κ ω γ π ρ ε} {l : Label κ ω γ ε}

theorem step_moves (h : step P s l = some t) : Moves P s l t := by
  cases l with
  | submit k =>
    simp only [step] at h
    split at h
    · next hs => exact Option.some.inj h ▸ .submit hs
    · cases h
  | cancel n =>
    simp only [step] at h
    split at h
    · next hs =>
      split at h
      · next hn => exact Option.some.inj h ▸ .cancel hs hn
      · cases h
    · cases h
  | write w => exact Option.some.inj h ▸ .write
  | start j =>
    simp only [step] at h
    split at h
    · next n rest hx hq => exact Option.some.inj h ▸ .turn hx (.start hq)
    · cases h
  | borrow j =>
    simp only [step] at h
    split at h
    · next n cur rest hx hf =>
      split at h
      · next k since hk => exact Option.some.inj h ▸ .turn hx (.borrow hf hk)
      · cases h
    · cases h
  | issue j =>
    simp only [step] at h
    split at h
    · next n cur p hx => exact Option.some.inj h ▸ .turn hx .issue
    · cases h
  | finish j =>
    simp only [step] at h
    split at h
    · next n cur p hx => exact Option.some.inj h ▸ .turn hx .finish
    · cases h
  | fail j c e =>
    simp only [step] at h
    split at h
    · next n cur p flagged hx => exact Option.some.inj h ▸ .turn hx .fail
    · cases h
  | giveBack j =>
    simp only [step] at h
    split at h
    · next n cur r hx => exact Option.some.inj h ▸ .turn hx .giveBack
    · cases h
  | close =>
    simp only [step] at h
    split at h
    · next hs => exact Option.some.inj h ▸ .close hs
    · cases h
  | interrupt =>
    simp only [step] at h
    split at h
    · next i todo hs => exact Option.some.inj h ▸ .interrupt hs
    · cases h
  | join =>
    simp only [step] at h
    split at h
    · next hs =>
      split at h
      · next hq => exact Option.some.inj h ▸ .join hs hq.1 hq.2
      · cases h
    · cases h

/-! ## One place each -/

def Place.job : Place γ π ρ ε → Option Nat
  | .idle => none
  | .waiting n | .ready n _ _ | .inside n _ _ _ | .leaving n _ _ => some n

def Place.cursor : Place γ π ρ ε → Option Nat
  | .idle | .waiting _ => none
  | .ready _ cur _ | .inside _ cur _ _ | .leaving _ cur _ => some cur.1

/-- How many hold the cursor: `_free` and the threads. -/
def Pool.cursorAt (s : Pool κ ω γ π ρ ε) (i : Nat) : Nat :=
  s.free.countP (·.1 == i) + s.threads.countP (·.cursor == some i)

/-- How many times the read is queued, on a thread, answered or cancelled. -/
def Pool.jobAt (s : Pool κ ω γ π ρ ε) (n : Nat) : Nat :=
  s.queued.countP (· == n) + s.threads.countP (·.job == some n) + s.results.countP (·.1 == n)
    + s.cancelled.countP (· == n)

/-- The states so far, oldest first. -/
def Pool.states (s : Pool κ ω γ π ρ ε) : List ω := s.past ++ [s.now]

/-- The read has come to `x` by its own statements, on the cursor it has borrowed and on states in the
order in which the writer went through them, none of them older than the read. -/
def Pool.Came (P : Program κ ω γ π ρ) (s : Pool κ ω γ π ρ ε) (n : Nat) (x : γ × (π ⊕ ρ)) : Prop :=
  ∃ k since c, ∃ seen : List Nat, s.requests[n]? = some (k, since) ∧ seen.Pairwise (· ≤ ·)
    ∧ (∀ i ∈ seen, since ≤ i ∧ i < s.states.length)
    ∧ P.follow c (P.start k) (seen.filterMap (s.states[·]?)) = x

/-- Where a read is on its thread, it has come to by its own statements. -/
def Pool.Holds (P : Program κ ω γ π ρ) (s : Pool κ ω γ π ρ ε) : Place γ π ρ ε → Prop
  | .idle | .waiting _ => True
  | .ready n cur p | .inside n cur p _ => s.Came P n (cur.2, .inl p)
  | .leaving n cur r => ∀ a, r = .ok a → s.Came P n (cur.2, .inr a)

structure Inv (P : Program κ ω γ π ρ) (s : Pool κ ω γ π ρ ε) : Prop where
  cursors : ∀ i, s.cursorAt i = if i < s.threads.length then 1 else 0
  lengths : s.free.length + s.threads.countP (·.cursor.isSome) = s.threads.length
  jobs : ∀ n, s.jobAt n = if n < s.requests.length then 1 else 0
  since : ∀ x ∈ s.requests, x.2 ≤ s.past.length
  places : ∀ pl ∈ s.threads, s.Holds P pl
  ended : ∀ n a, (n, .ok a) ∈ s.results → ∃ c, s.Came P n (c, .inr a)

theorem sum_swap {α : Type} {f : α → Nat} {xs : List α} {j : Nat} {x y : α} (h : xs[j]? = some x) :
    ((xs.set j y).map f).sum + f x = (xs.map f).sum + f y := by
  induction xs generalizing j with
  | nil => simp at h
  | cons a xs ih =>
    cases j with
    | zero =>
      obtain rfl : a = x := by simpa using h
      simp only [List.set_cons_zero, List.map_cons, List.sum_cons]
      omega
    | succ j =>
      have hrest := ih (j := j) (by simpa using h)
      simp only [List.set_cons_succ, List.map_cons, List.sum_cons]
      omega

theorem toNat_ite (b : Bool) : b.toNat = if b = true then 1 else 0 := by
  cases b <;> rfl

theorem countP_sum {α : Type} (p : α → Bool) (xs : List α) :
    xs.countP p = (xs.map fun a => (p a).toNat).sum := by
  induction xs with
  | nil => rfl
  | cons a xs ih =>
    rw [List.countP_cons, List.map_cons, List.sum_cons, ih]
    cases p a <;> simp [Nat.add_comm]

theorem countP_swap {α : Type} {p : α → Bool} {xs : List α} {j : Nat} {x y : α}
    (h : xs[j]? = some x) :
    (xs.set j y).countP p + (p x).toNat = xs.countP p + (p y).toNat := by
  rw [countP_sum, countP_sum]
  exact sum_swap h

@[simp] theorem flag_job (i : Nat) (pl : Place γ π ρ ε) : (pl.flag P i).job = pl.job := by
  cases pl <;> rfl

@[simp] theorem flag_cursor (i : Nat) (pl : Place γ π ρ ε) : (pl.flag P i).cursor = pl.cursor := by
  cases pl <;> rfl

@[simp] theorem after_job (n i : Nat) (x : γ × (π ⊕ ρ)) :
    (Place.after n i x : Place γ π ρ ε).job = some n := by
  rcases x with ⟨c, p | r⟩ <;> rfl

@[simp] theorem after_cursor (n i : Nat) (x : γ × (π ⊕ ρ)) :
    (Place.after n i x : Place γ π ρ ε).cursor = some i := by
  rcases x with ⟨c, p | r⟩ <;> rfl

/-- One more statement has been run, and what it finds is the last state. -/
theorem Pool.Came.next {n : Nat} {c : γ} {p : π} (h : s.Came P n (c, .inl p))
    (hsince : ∀ x ∈ s.requests, x.2 ≤ s.past.length) :
    s.Came P n (P.statement s.now c p) := by
  obtain ⟨k, since, c₀, seen, hk, hsorted, hseen, hx⟩ := h
  have hlen : s.states.length = s.past.length + 1 := by simp [Pool.states]
  have hlast : s.states[s.past.length]? = some s.now := by simp [Pool.states]
  refine ⟨k, since, c₀, seen ++ [s.past.length], hk, ?_, ?_, ?_⟩
  · rw [List.pairwise_append]
    refine ⟨hsorted, List.pairwise_singleton _ _, fun i hi j hj => ?_⟩
    rw [List.mem_singleton.mp hj]
    have := (hseen i hi).2
    omega
  · intro i hi
    rcases List.mem_append.mp hi with hi | hi
    · exact hseen i hi
    · rw [List.mem_singleton.mp hi]
      exact ⟨hsince _ (List.mem_of_getElem? hk), by omega⟩
  · rw [List.filterMap_append, Program.follow, List.foldl_append]
    show List.foldl P.next (P.follow c₀ (P.start k) _) _ = _
    rw [hx, List.filterMap_cons_some hlast]
    rfl

/-- What a read has seen stays what it was. -/
theorem Pool.Came.mono {n : Nat} {x : γ × (π ⊕ ρ)} (h : s.Came P n x)
    (hr : s.requests <+: t.requests) (hw : s.states <+: t.states) : t.Came P n x := by
  obtain ⟨k, since, c, seen, hk, hsorted, hseen, hx⟩ := h
  obtain ⟨rs, hrs⟩ := hr
  obtain ⟨ws, hws⟩ := hw
  refine ⟨k, since, c, seen, ?_, hsorted, ?_, ?_⟩
  · rw [← hrs, List.getElem?_append_left (List.getElem?_eq_some_iff.mp hk).1]
    exact hk
  · intro i hi
    rw [← hws, List.length_append]
    have := hseen i hi
    omega
  · rw [← hx]
    congr 1
    apply List.filterMap_congr
    intro i hi
    rw [← hws, List.getElem?_append_left (hseen i hi).2]

theorem Pool.Holds.mono {pl : Place γ π ρ ε} (h : s.Holds P pl)
    (hr : s.requests <+: t.requests) (hw : s.states <+: t.states) : t.Holds P pl := by
  cases pl with
  | idle => trivial
  | waiting n => trivial
  | ready n cur p => exact Pool.Came.mono h hr hw
  | inside n cur p flagged => exact Pool.Came.mono h hr hw
  | leaving n cur r => exact fun a ha => (h a ha).mono hr hw

/-- What a thread leaves as it is when it takes its turn. -/
theorem Turn.frame {j : Nat} {x y : Place γ π ρ ε} (h : Turn P s l j x y t) :
    t.requests = s.requests ∧ t.states = s.states ∧ t.stage = s.stage ∧ t.threads = s.threads := by
  cases h <;> exact ⟨rfl, rfl, rfl, rfl⟩

theorem Turn.cursors {j i : Nat} {x y : Place γ π ρ ε} (h : Turn P s l j x y t) :
    t.free.countP (·.1 == i) + (y.cursor == some i).toNat
      = s.free.countP (·.1 == i) + (x.cursor == some i).toNat := by
  cases h with
  | start => rfl
  | borrow hf =>
    rw [hf, List.countP_cons]
    simp [Place.cursor, toNat_ite]
  | issue => rfl
  | finish =>
    rw [after_cursor]
    rfl
  | fail => rfl
  | giveBack => simp [Place.cursor, toNat_ite]

theorem Turn.lengths {j : Nat} {x y : Place γ π ρ ε} (h : Turn P s l j x y t) :
    t.free.length + y.cursor.isSome.toNat = s.free.length + x.cursor.isSome.toNat := by
  cases h with
  | start => rfl
  | borrow hf =>
    rw [hf, List.length_cons]
    rfl
  | issue => rfl
  | finish =>
    rw [after_cursor]
    rfl
  | fail => rfl
  | giveBack => simp [Place.cursor]

theorem Turn.jobs {j n : Nat} {x y : Place γ π ρ ε} (h : Turn P s l j x y t) :
    t.queued.countP (· == n) + (y.job == some n).toNat + t.results.countP (·.1 == n)
        + t.cancelled.countP (· == n)
      = s.queued.countP (· == n) + (x.job == some n).toNat + s.results.countP (·.1 == n)
        + s.cancelled.countP (· == n) := by
  cases h with
  | start hq =>
    rw [hq, List.countP_cons]
    simp [Place.job, toNat_ite]
  | borrow => rfl
  | issue => rfl
  | finish =>
    rw [after_job]
    rfl
  | fail => rfl
  | giveBack =>
    simp only [Place.job, List.countP_append, List.countP_cons, List.countP_nil, toNat_ite]
    simp
    omega

/-- A thread comes to its new place by a statement of its read, if by anything. -/
theorem Turn.holds {j : Nat} {x y : Place γ π ρ ε} (h : Turn P s l j x y t) (hx : s.Holds P x)
    (hsince : ∀ r ∈ s.requests, r.2 ≤ s.past.length) : s.Holds P y := by
  cases h with
  | start => trivial
  | @borrow j n since cur rest k hf hk =>
    exact ⟨k, since, cur.2, [], hk, List.Pairwise.nil, by simp, rfl⟩
  | issue => exact hx
  | @finish j n cur p =>
    have hnext := Pool.Came.next hx hsince
    revert hnext
    rcases P.statement s.now cur.2 p with ⟨c, q | a⟩
    · exact id
    · intro hcame b hb
      rcases Except.ok.inj hb with rfl
      exact hcame
  | fail =>
    intro a ha
    cases ha
  | giveBack => trivial

theorem Turn.ended {j : Nat} {x y : Place γ π ρ ε} (h : Turn P s l j x y t) (hx : s.Holds P x)
    (hended : ∀ n a, (n, .ok a) ∈ s.results → ∃ c, s.Came P n (c, .inr a)) :
    ∀ n a, (n, .ok a) ∈ t.results → ∃ c, s.Came P n (c, .inr a) := by
  cases h with
  | @giveBack j n cur r =>
    intro m a hmem
    rcases List.mem_append.mp hmem with hmem | hmem
    · exact hended m a hmem
    · rcases Prod.mk.inj (List.mem_singleton.mp hmem) with ⟨rfl, hr⟩
      exact ⟨cur.2, hx a hr.symm⟩
  | _ => exact hended

/-- Every step of the pool, of its callers and of the writer keeps the invariant. -/
theorem Moves.inv (h : Moves P s l t) (hI : Inv P s) : Inv P t := by
  cases h with
  | @submit k hs =>
    have hmono : s.requests <+: s.requests ++ [(k, s.past.length)] := List.prefix_append _ _
    refine ⟨hI.cursors, hI.lengths, fun n => ?_, fun x hx => ?_, fun pl hpl => ?_,
      fun n a hmem => ?_⟩
    · have hjob := hI.jobs n
      simp only [Pool.jobAt, List.countP_append, List.countP_singleton, List.length_append,
        List.length_singleton, beq_iff_eq] at hjob ⊢
      split_ifs at hjob ⊢ <;> omega
    · rcases List.mem_append.mp hx with hx | hx
      · exact hI.since x hx
      · rcases List.mem_singleton.mp hx with rfl
        exact Nat.le_refl _
    · exact (hI.places pl hpl).mono hmono (List.prefix_refl _)
    · obtain ⟨c, hc⟩ := hI.ended n a hmem
      exact ⟨c, hc.mono hmono (List.prefix_refl _)⟩
  | @cancel n hs hn =>
    refine ⟨hI.cursors, hI.lengths, fun m => ?_, hI.since, hI.places, hI.ended⟩
    have hjob := hI.jobs m
    have hpos : 0 < s.queued.count n := List.count_pos_iff.mpr hn
    have herase : (s.queued.erase n).countP (· == m) + [n].countP (· == m)
        = s.queued.countP (· == m) := by
      show (s.queued.erase n).count m + [n].count m = s.queued.count m
      by_cases hnm : m = n
      · subst hnm
        simp only [List.count_erase_self, List.count_singleton_self]
        omega
      · rw [List.count_erase_of_ne hnm, List.count_singleton]
        simp [Ne.symm hnm]
    simp only [Pool.jobAt, List.countP_append] at hjob ⊢
    omega
  | @write w =>
    have hmono : s.states <+: s.states ++ [w] := List.prefix_append _ _
    refine ⟨hI.cursors, hI.lengths, hI.jobs, fun x hx => ?_, fun pl hpl => ?_, fun n a hmem => ?_⟩
    · rw [List.length_append]
      exact Nat.le_add_right_of_le (hI.since x hx)
    · exact (hI.places pl hpl).mono (List.prefix_refl _) hmono
    · obtain ⟨c, hc⟩ := hI.ended n a hmem
      exact ⟨c, hc.mono (List.prefix_refl _) hmono⟩
  | @turn _ j x y u hx hturn =>
    obtain ⟨hr, hw, -, hth⟩ := hturn.frame
    have hpre : s.requests <+: u.requests := hr ▸ List.prefix_refl _
    have hprw : s.states <+: u.states := hw ▸ List.prefix_refl _
    have hxs := hI.places x (List.mem_of_getElem? hx)
    have hpast : u.past = s.past := by
      cases hturn <;> rfl
    refine ⟨fun i => ?_, ?_, fun n => ?_, fun r hmem => ?_, fun pl hpl => ?_, fun n a hmem => ?_⟩
    · have hcur := hI.cursors i
      have hone := hturn.cursors (i := i)
      have hswap := countP_swap (p := fun pl => pl.cursor == some i) (y := y) hx
      simp only [Pool.cursorAt, List.length_set] at hcur ⊢
      omega
    · have hlen := hI.lengths
      have hone := hturn.lengths
      have hswap := countP_swap (p := fun pl => pl.cursor.isSome) (y := y) hx
      simp only [List.length_set]
      omega
    · have hjob := hI.jobs n
      have hone := hturn.jobs (n := n)
      have hswap := countP_swap (p := fun pl => pl.job == some n) (y := y) hx
      rw [← hr] at hjob
      simp only [Pool.jobAt] at hjob ⊢
      omega
    · show r.2 ≤ u.past.length
      rw [hpast]
      exact hI.since r (hr ▸ hmem)
    · rcases List.mem_or_eq_of_mem_set hpl with hpl | rfl
      · exact (hI.places pl hpl).mono hpre hprw
      · exact (hturn.holds hxs hI.since).mono hpre hprw
    · obtain ⟨c, hc⟩ := hturn.ended hxs hI.ended n a hmem
      exact ⟨c, hc.mono hpre hprw⟩
  | close => exact ⟨hI.cursors, hI.lengths, hI.jobs, hI.since, hI.places, hI.ended⟩
  | @interrupt i todo hs =>
    refine ⟨fun n => ?_, ?_, fun n => ?_, hI.since, fun pl hpl => ?_, hI.ended⟩
    · have hcur := hI.cursors n
      simpa [Pool.cursorAt, List.countP_map, Function.comp_def] using hcur
    · simpa [List.countP_map, Function.comp_def] using hI.lengths
    · have hjob := hI.jobs n
      simpa [Pool.jobAt, List.countP_map, Function.comp_def] using hjob
    · obtain ⟨pl, hmem, rfl⟩ := List.mem_map.mp hpl
      have hpl := hI.places pl hmem
      cases pl <;> exact hpl
  | join => exact ⟨hI.cursors, hI.lengths, hI.jobs, hI.since, hI.places, hI.ended⟩

theorem Inv.create (workers : Nat) (c : γ) (w : ω) :
    Inv P (Pool.create workers c w : Pool κ ω γ π ρ ε) where
  cursors := by
    intro i
    have hfree : ((List.range workers).map fun i => (i, c)).countP (·.1 == i)
        = if i < workers then 1 else 0 := by
      rw [List.countP_map]
      show (List.range workers).count i = _
      rw [List.nodup_range.count]
      simp
    have hthreads : (List.replicate workers (.idle : Place γ π ρ ε)).countP
        (fun pl => pl.cursor == some i) = 0 := by
      rw [List.countP_replicate]
      rfl
    simp only [Pool.cursorAt, Pool.create, hfree, hthreads, List.length_replicate, Nat.add_zero]
  lengths := by
    simp [Pool.create, List.countP_replicate, Place.cursor]
  jobs := by
    intro n
    simp [Pool.jobAt, Pool.create, List.countP_replicate, Place.job]
  since := by simp [Pool.create]
  places := by
    intro pl hpl
    rw [List.eq_of_mem_replicate hpl]
    trivial
  ended := by simp [Pool.create]

theorem run_inv {workers : Nat} {c : γ} {w : ω} {ls : List (Label κ ω γ ε)}
    (hrun : run (step P) (Pool.create workers c w) ls = some t) : Inv P t :=
  run_invariant (fun _ _ _ hI h => (step_moves h).inv hI) (Inv.create workers c w) hrun

/-- A thread that asks for a cursor finds one. -/
theorem Inv.free_ne_nil (hI : Inv P s) {n : Nat} (h : .waiting n ∈ s.threads) : s.free ≠ [] := by
  intro hfree
  have hlen := hI.lengths
  rw [hfree, List.length_nil, Nat.zero_add, List.countP_eq_length] at hlen
  exact absurd (hlen _ h) (by simp [Place.cursor])

theorem run_threads {workers : Nat} {c : γ} {w : ω} {ls : List (Label κ ω γ ε)}
    (hrun : run (step P) (Pool.create workers c w) ls = some t) : t.threads.length = workers := by
  refine run_invariant (I := fun s => s.threads.length = workers) ?_ (by simp [Pool.create]) hrun
  intro s l t hs h
  cases step_moves h with
  | turn => simpa using hs
  | interrupt => simpa using hs
  | _ => exact hs

/-- In every state the pool can be in, each of its cursors is free or on one thread; each read that was
asked for is queued, on one thread, answered once or cancelled; and no thread waits for a cursor in
vain. -/
theorem one_place {workers : Nat} {c : γ} {w : ω} {ls : List (Label κ ω γ ε)}
    (hrun : run (step P) (Pool.create workers c w) ls = some t) :
    (∀ i < workers, t.cursorAt i = 1) ∧ (∀ n < t.requests.length, t.jobAt n = 1)
      ∧ ∀ n, .waiting n ∈ t.threads → t.free ≠ [] := by
  have hI := run_inv hrun
  have hlen := run_threads hrun
  refine ⟨fun i hi => ?_, fun n hn => ?_, fun n hn => hI.free_ne_nil hn⟩
  · rw [hI.cursors i, hlen, if_pos hi]
  · rw [hI.jobs n, if_pos hn]

/-! ## Joining the threads -/

variable (P) in
/-- The reads of `R` never answer by themselves: none of their statements is the last, and none fails
unless it has been interrupted. -/
def Stays (R : Nat → Prop) (s : Pool κ ω γ π ρ ε) : Label κ ω γ ε → Prop
  | .finish j => ∀ n cur p, s.threads[j]? = some (.inside n cur p false) → R n →
    ∃ q, (P.statement s.now cur.2 p).2 = .inl q
  | .fail j _ _ => ∀ n cur p, s.threads[j]? = some (.inside n cur p false) → ¬ R n
  | _ => True

/-- Such a read is on the thread, and no interrupt has reached it. -/
def Place.Stuck (R : Nat → Prop) : Place γ π ρ ε → Prop
  | .waiting n | .ready n _ _ => R n
  | .inside n _ _ flagged => R n ∧ flagged = false
  | _ => False

def Pool.Stuck (R : Nat → Prop) (s : Pool κ ω γ π ρ ε) : Prop :=
  (∃ n ∈ s.queued, R n) ∨ ∃ pl ∈ s.threads, pl.Stuck R

instance Place.decidableStuck (R : Nat → Prop) [DecidablePred R] :
    (pl : Place γ π ρ ε) → Decidable (pl.Stuck R)
  | .idle | .leaving _ _ _ => inferInstanceAs (Decidable False)
  | .waiting n | .ready n _ _ => inferInstanceAs (Decidable (R n))
  | .inside n _ _ flagged => inferInstanceAs (Decidable (R n ∧ flagged = false))

instance (R : Nat → Prop) [DecidablePred R] (s : Pool κ ω γ π ρ ε) : Decidable (s.Stuck R) :=
  inferInstanceAs (Decidable (_ ∨ _))

/-- Every cursor has been interrupted; when the threads have been joined, nothing is left to do. -/
def Pool.Joining (s : Pool κ ω γ π ρ ε) : Prop :=
  s.stage = .closing [] ∨ s.stage = .closed ∧ s.queued = [] ∧ s.threads.all Place.isIdle = true

variable (P) in
/-- Every statement takes from what a read has still to do. -/
def Program.Halts (size : π → Nat) : Prop :=
  ∀ w c p q, (P.statement w c p).2 = .inl q → size q < size p

variable (P) in
def Pool.need (s : Pool κ ω γ π ρ ε) (size : π → Nat) (n : Nat) : Nat :=
  (s.requests[n]?.map fun x => 2 * size (P.start x.1)).getD 0

/-- How many steps a thread has still to take, where `need` is what a read takes. -/
def Place.work (size : π → Nat) (need : Nat → Nat) : Place γ π ρ ε → Nat
  | .idle => 0
  | .waiting n => need n + 4
  | .ready _ _ p => 2 * size p + 3
  | .inside _ _ p _ => 2 * size p + 2
  | .leaving _ _ _ => 1

def Stage.work : Stage → Nat
  | .closed => 0
  | _ => 1

variable (P) in
/-- How many steps the threads have still to take, and the loop that joins them. -/
def Pool.work (s : Pool κ ω γ π ρ ε) (size : π → Nat) : Nat :=
  (s.queued.map (s.need P size · + 5)).sum + (s.threads.map (Place.work size (s.need P size))).sum
    + s.stage.work

def Label.isWrite : Label κ ω γ ε → Bool
  | .write _ => true
  | _ => false

variable {R : Nat → Prop} {size : π → Nat}

theorem exists_set {α : Type} {p : α → Prop} {xs : List α} {j : Nat} {x : α} (y : α)
    (h : xs[j]? = some x) :
    ((∃ a ∈ xs.set j y, p a) ↔ p y ∨ ∃ a ∈ xs.eraseIdx j, p a)
      ∧ ((∃ a ∈ xs, p a) ↔ p x ∨ ∃ a ∈ xs.eraseIdx j, p a) := by
  obtain ⟨hj, rfl⟩ := List.getElem?_eq_some_iff.mp h
  have hset := List.set_perm_cons_eraseIdx hj y
  have hold := List.getElem_cons_eraseIdx_perm hj
  refine ⟨?_, ?_⟩
  · simp only [hset.mem_iff, List.exists_mem_cons_iff]
  · simp only [← hold.mem_iff, List.exists_mem_cons_iff]

/-- No turn of a thread frees a read that is stuck, or leaves one stuck. -/
theorem Turn.stuck {j : Nat} {x y : Place γ π ρ ε} (h : Turn P s l j x y t)
    (hx : s.threads[j]? = some x) (hg : Stays P R s l) :
    (∃ n ∈ t.queued, R n) ∨ y.Stuck R ↔ (∃ n ∈ s.queued, R n) ∨ x.Stuck R := by
  cases h with
  | @start j n rest hq =>
    rw [hq]
    simp only [Place.Stuck, List.exists_mem_cons_iff, or_false]
    exact or_comm
  | borrow => exact Iff.rfl
  | issue => simp [Place.Stuck]
  | @finish j n cur p =>
    have hstay := hg n cur p hx
    rcases hst : P.statement s.now cur.2 p with ⟨c, q | r⟩
    · simp [Place.Stuck, Place.after]
    · have hR : ¬ R n := by
        intro hR
        obtain ⟨q, hq⟩ := hstay hR
        rw [hst] at hq
        cases hq
      simp [Place.Stuck, Place.after, hR]
  | @fail j n cur p flagged c e =>
    cases flagged with
    | true => simp [Place.Stuck]
    | false =>
      have hR : ¬ R n := hg n cur p hx
      simp [Place.Stuck, hR]
  | giveBack => exact Iff.rfl

/-- While the threads are being joined, what is stuck stays stuck and nothing else becomes so. -/
theorem Moves.stuck (h : Moves P s l t) (hg : Stays P R s l) (hs : s.Joining) :
    t.Joining ∧ (t.Stuck R ↔ s.Stuck R) := by
  have hopen : s.stage ≠ .opened := by
    rcases hs with hs | ⟨hs, -⟩ <;> rw [hs] <;> simp
  cases h with
  | submit h => exact absurd h hopen
  | cancel h => exact absurd h hopen
  | close h => exact absurd h hopen
  | write => exact ⟨hs, Iff.rfl⟩
  | interrupt h =>
    rcases hs with hs | ⟨hs, -⟩ <;> rw [hs] at h <;> cases h
  | join h hq ht => exact ⟨Or.inr ⟨rfl, hq, ht⟩, Iff.rfl⟩
  | @turn _ j x y u hx hturn =>
    obtain ⟨-, -, hstage, -⟩ := hturn.frame
    refine ⟨?_, ?_⟩
    · rcases hs with hs | ⟨-, hq, hidle⟩
      · exact Or.inl (hstage.trans hs)
      -- after the join no thread has a turn to take
      · have hxi : x.isIdle = true := List.all_eq_true.mp hidle x (List.mem_of_getElem? hx)
        cases hturn with
        | start hq' =>
          rw [hq] at hq'
          cases hq'
        | _ => cases hxi
    · obtain ⟨hset, hold⟩ := exists_set (p := Place.Stuck R) y hx
      have hone := hturn.stuck hx hg
      show (∃ n ∈ u.queued, R n) ∨ (∃ pl ∈ s.threads.set j y, pl.Stuck R) ↔ _
      rw [hset, ← or_assoc, hone, or_assoc, ← hold]
      rfl

theorem Turn.work {j : Nat} {x y : Place γ π ρ ε} (h : Turn P s l j x y t) (hP : P.Halts size) :
    (t.queued.map (s.need P size · + 5)).sum + y.work size (s.need P size) + 1
      ≤ (s.queued.map (s.need P size · + 5)).sum + x.work size (s.need P size) := by
  cases h with
  | @start j n rest hq =>
    rw [hq, List.map_cons, List.sum_cons]
    simp only [Place.work]
    omega
  | @borrow j n since cur rest k hf hk =>
    have hneed : s.need P size n = 2 * size (P.start k) := by
      rw [Pool.need, hk]
      rfl
    simp only [Place.work]
    omega
  | issue =>
    simp only [Place.work]
    omega
  | @finish j n cur p =>
    rcases hst : P.statement s.now cur.2 p with ⟨c, q | r⟩
    · have hlt := hP s.now cur.2 p q (congrArg Prod.snd hst)
      simp only [Place.work, Place.after]
      omega
    · simp only [Place.work, Place.after]
      omega
  | fail =>
    simp only [Place.work]
    omega
  | giveBack =>
    simp only [Place.work]
    omega

/-- Every step but a write is one that was still to be taken. -/
theorem Moves.work (h : Moves P s l t) (hP : P.Halts size) (hs : s.Joining) :
    t.work P size + 1 ≤ s.work P size + (if l.isWrite then 1 else 0) := by
  have hopen : s.stage ≠ .opened := by
    rcases hs with hs | ⟨hs, -⟩ <;> rw [hs] <;> simp
  cases h with
  | submit h => exact absurd h hopen
  | cancel h => exact absurd h hopen
  | close h => exact absurd h hopen
  | write => exact Nat.le_refl _
  | interrupt h =>
    rcases hs with hs | ⟨hs, -⟩ <;> rw [hs] at h <;> cases h
  | join h hq ht =>
    show (s.queued.map (s.need P size · + 5)).sum
      + (s.threads.map (Place.work size (s.need P size))).sum + 0 + 1 ≤ s.work P size + 0
    rw [Pool.work, h]
    exact Nat.le_refl _
  | @turn _ j x y u hx hturn =>
    obtain ⟨hr, -, hstage, -⟩ := hturn.frame
    have hneed : u.need P size = s.need P size := by
      funext n
      rw [Pool.need, Pool.need, hr]
    have hone := hturn.work hP
    have hswap := sum_swap (f := Place.work size (s.need P size)) (y := y) hx
    show (u.queued.map (u.need P size · + 5)).sum
      + ((s.threads.set j y).map (Place.work size (u.need P size))).sum + u.stage.work + 1 ≤ _
    rw [hneed, hstage, Pool.work]
    omega

/-- While a thread is not stuck there is a turn to take, and when none is left the pool is closed. -/
theorem Inv.exists_turn [Nonempty ε] (hI : Inv P s) (hthreads : 0 < s.threads.length)
    (hs : s.stage = .closing []) (hfree : ¬ s.Stuck R) :
    ∃ l, l.isWrite = false ∧ Stays P R s l ∧ (step P s l).isSome = true := by
  by_cases hidle : s.threads.all Place.isIdle = true
  · by_cases hq : s.queued = []
    · refine ⟨.join, rfl, trivial, ?_⟩
      simp only [step, hs, hq, hidle, and_self, if_true, Option.isSome_some]
    · obtain ⟨n, rest, hq⟩ := List.exists_cons_of_ne_nil hq
      have hfirst : s.threads[0]? = some .idle := by
        rw [List.getElem?_eq_getElem hthreads]
        have hx := List.all_eq_true.mp hidle _ (List.getElem_mem hthreads)
        revert hx
        cases s.threads[0] <;> simp [Place.isIdle]
      exact ⟨.start 0, rfl, trivial, by simp only [step, hfirst, hq, Option.isSome_some]⟩
  · obtain ⟨x, hx, hbusy⟩ : ∃ x ∈ s.threads, x.isIdle = false := by simpa using hidle
    obtain ⟨j, hj⟩ := List.getElem?_of_mem hx
    have hstuck : ¬ x.Stuck R := fun h => hfree (Or.inr ⟨x, hx, h⟩)
    cases x with
    | idle => cases hbusy
    | waiting n =>
      obtain ⟨cur, rest, hcur⟩ := List.exists_cons_of_ne_nil (hI.free_ne_nil hx)
      have hn : n < s.requests.length := by
        by_contra hn
        have hjob := hI.jobs n
        rw [if_neg hn, Pool.jobAt] at hjob
        have hpos : 0 < s.threads.countP (·.job == some n) :=
          List.countP_pos_iff.mpr ⟨_, hx, by simp [Place.job]⟩
        omega
      refine ⟨.borrow j, rfl, trivial, ?_⟩
      simp only [step, hj, hcur, List.getElem?_eq_getElem hn, Option.isSome_some]
    | ready n cur p => exact ⟨.issue j, rfl, trivial, by simp only [step, hj, Option.isSome_some]⟩
    | inside n cur p flagged =>
      cases flagged with
      | false =>
        have hR : ¬ R n := fun hR => hstuck ⟨hR, rfl⟩
        refine ⟨.finish j, rfl, fun m cur' p' hin hRm => ?_, ?_⟩
        · rw [hj] at hin
          injection hin with hin
          injection hin with hnm
          exact absurd (hnm ▸ hRm) hR
        · simp only [step, hj, Option.isSome_some]
      | true =>
        obtain ⟨e⟩ := ‹Nonempty ε›
        refine ⟨.fail j cur.2 e, rfl, fun m cur' p' hin => ?_, ?_⟩
        · rw [hj] at hin
          injection hin with hin
          injection hin with _ _ _ hflag
          cases hflag
        · simp only [step, hj, Option.isSome_some]
    | leaving n cur r =>
      exact ⟨.giveBack j, rfl, trivial, by simp only [step, hj, Option.isSome_some]⟩

theorem sum_writes (ls : List (Label κ ω γ ε)) :
    (ls.map fun l => if l.isWrite then 1 else 0).sum = ls.countP Label.isWrite := by
  induction ls with
  | nil => rfl
  | cons l ls ih =>
    rw [List.map_cons, List.sum_cons, ih, List.countP_cons]
    omega

/-- Once every cursor has been interrupted, `close` returns iff no read that does not answer by itself
is left on the queue or on a thread without its interrupt: where one is, no run ever joins the threads;
where none is, every run is bounded, but for the writes, and stops nowhere short of it. -/
theorem joins_iff [Nonempty ε] (hP : P.Halts size) {workers : Nat} (hw : 0 < workers) {c : γ} {w : ω}
    {before : List (Label κ ω γ ε)} (hrun : run (step P) (Pool.create workers c w) before = some s)
    (hs : s.stage = .closing []) :
    (s.Stuck R → ∀ ls t, Guarded (step P) (Stays P R) s ls → run (step P) s ls = some t →
        t.stage ≠ .closed)
      ∧ (¬ s.Stuck R → ∀ ls t, Guarded (step P) (Stays P R) s ls → run (step P) s ls = some t →
        ls.length ≤ s.work P size + ls.countP Label.isWrite
          ∧ (t.stage = .closed
            ∨ ∃ l, l.isWrite = false ∧ Stays P R t l ∧ (step P t l).isSome = true)) := by
  have hkeep : ∀ (u : Pool κ ω γ π ρ ε) l v, (u.Joining ∧ (u.Stuck R ↔ s.Stuck R)) → Stays P R u l →
      step P u l = some v → v.Joining ∧ (v.Stuck R ↔ s.Stuck R) := by
    rintro u l v ⟨hu, hstuck⟩ hg h
    obtain ⟨hv, hsame⟩ := (step_moves h).stuck hg hu
    exact ⟨hv, hsame.trans hstuck⟩
  have hs0 : s.Joining ∧ (s.Stuck R ↔ s.Stuck R) := ⟨Or.inl hs, Iff.rfl⟩
  refine ⟨fun hstuck ls t hg ht hclosed => ?_, fun hfree ls t hg ht => ⟨?_, ?_⟩⟩
  · obtain ⟨hjoin, hsame⟩ := run_guarded hkeep hs0 hg ht
    rcases hjoin with h | ⟨-, hq, hidle⟩
    · rw [hclosed] at h
      cases h
    · rcases hsame.mpr hstuck with ⟨n, hn, -⟩ | ⟨pl, hpl, hR⟩
      · rw [hq] at hn
        cases hn
      · have hi := List.all_eq_true.mp hidle pl hpl
        cases pl with
        | idle => exact hR
        | _ => cases hi
  · have hspend : ls.length + t.work P size
        ≤ s.work P size + (ls.map fun l => if l.isWrite then 1 else 0).sum :=
      run_spends (fun u l v hu hg h => ⟨hkeep u l v hu hg h, (step_moves h).work hP hu.1⟩) hs0 hg ht
    rw [sum_writes] at hspend
    omega
  · obtain ⟨hjoin, hsame⟩ := run_guarded hkeep hs0 hg ht
    rcases hjoin with h | ⟨h, -⟩
    · refine Or.inr ?_
      have hall : run (step P) (Pool.create workers c w) (before ++ ls) = some t := by
        rw [run_append, hrun]
        exact ht
      exact (run_inv hall).exists_turn (by rw [run_threads hall]; exact hw) h
        fun h => hfree (hsame.mp h)
    · exact Or.inl h

end Machine

end Seekbase.ReadPool
